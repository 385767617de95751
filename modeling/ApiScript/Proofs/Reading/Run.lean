import ApiScript.Session

set_option autoImplicit false
set_option relaxedAutoImplicit false

/-!
What it takes for a reader to succeed. A sequence of steps is told by its steps, and each basic
reader by the question it asks of the state and the state it leaves.
-/

namespace ApiScript.Grammar

/-- At the state `s` the reader succeeds with `a` and leaves the state `t`. -/
def Reads {α : Type} (p : Parser α) (s : State) (a : α) (t : State) : Prop := p s = .ok a t

/-- At the state `s` the reader fails with `d` and leaves the state `t`. -/
def Fails {α : Type} (p : Parser α) (s : State) (d : Diagnostic) (t : State) : Prop :=
  p s = .error d t

variable {α β : Type} {s t u : State}

theorem reads_bind {p : Parser α} {f : α → Parser β} {b : β} :
    Reads (p >>= f) s b u ↔ ∃ a t, Reads p s a t ∧ Reads (f a) t b u := by
  change EStateM.bind p f s = .ok b u ↔ ∃ a t, p s = .ok a t ∧ f a t = .ok b u
  cases h : p s with
  | ok a t =>
    simp only [EStateM.bind, h, EStateM.Result.ok.injEq]
    exact ⟨fun k => ⟨a, t, ⟨rfl, rfl⟩, k⟩, fun ⟨_, _, ⟨rfl, rfl⟩, k⟩ => k⟩
  | error d t => simp [EStateM.bind, h]

theorem fails_bind {p : Parser α} {f : α → Parser β} {d : Diagnostic} :
    Fails (p >>= f) s d u ↔ Fails p s d u ∨ ∃ a t, Reads p s a t ∧ Fails (f a) t d u := by
  change EStateM.bind p f s = .error d u ↔ p s = .error d u ∨ ∃ a t, p s = .ok a t ∧
    f a t = .error d u
  cases h : p s with
  | ok a t =>
    simp only [EStateM.bind, h, EStateM.Result.ok.injEq, reduceCtorEq, false_or]
    exact ⟨fun k => ⟨a, t, ⟨rfl, rfl⟩, k⟩, fun ⟨_, _, ⟨rfl, rfl⟩, k⟩ => k⟩
  | error e t => simp [EStateM.bind, h]

theorem reads_get {a : State} : Reads get s a t ↔ a = s ∧ t = s := by
  change EStateM.Result.ok s s = .ok a t ↔ _
  rw [EStateM.Result.ok.injEq, eq_comm, @eq_comm _ s t]

theorem reads_pure {a b : α} : Reads (pure a) s b t ↔ b = a ∧ t = s := by
  change EStateM.Result.ok a s = .ok b t ↔ _
  rw [EStateM.Result.ok.injEq, eq_comm, @eq_comm _ s]

theorem reads_map {p : Parser α} {f : α → β} {b : β} :
    Reads (f <$> p) s b t ↔ ∃ a, Reads p s a t ∧ b = f a := by
  change Reads (p >>= fun a => pure (f a)) s b t ↔ _
  simp only [reads_bind, reads_pure]
  exact ⟨fun ⟨a, _, h, hb, ht⟩ => ⟨a, ht ▸ h, hb⟩, fun ⟨a, h, hb⟩ => ⟨a, t, h, hb, rfl⟩⟩

theorem reads_throw {d : Diagnostic} {b : β} : Reads (throw d) s b t ↔ False := by
  change EStateM.Result.error d s = .ok b t ↔ _
  simp

theorem reads_unexpected {expected : Expectation} {b : β} : Reads (unexpected expected) s b t ↔
    False := by
  change EStateM.Result.error _ s = .ok b t ↔ _
  simp

theorem reads_ask {question : State → α} {a : α} : Reads (ask question) s a t ↔ a = question s ∧
    t = s := by
  change EStateM.Result.ok (question s) s = .ok a t ↔ _
  rw [EStateM.Result.ok.injEq, eq_comm, @eq_comm _ s]

theorem reads_modify {f : State → State} {a : Unit} : Reads (modify f) s a t ↔ t = f s := by
  change EStateM.Result.ok () (f s) = .ok a t ↔ _
  rw [EStateM.Result.ok.injEq, @eq_comm _ (f s)]
  exact and_iff_right rfl

theorem reads_advance {a : Unit} : Reads advance s a t ↔ t = s.advance := reads_modify

theorem reads_ite {c : Prop} [Decidable c] {p q : Parser α} {a : α} :
    Reads (if c then p else q) s a t ↔ c ∧ Reads p s a t ∨ ¬c ∧ Reads q s a t := by
  by_cases h : c <;> simp [h]

theorem reads_outcome {p : Parser α} {r : Except Diagnostic α} :
    Reads (outcome p) s r t ↔ (∃ a, r = .ok a ∧ Reads p s a t) ∨ ∃ d, r = .error d ∧
    Fails p s d t := by
  unfold Reads Fails
  cases h : p s with
  | ok a u =>
    have hr : outcome p s = .ok (.ok a) u := by simp only [outcome, h]
    simp only [hr, EStateM.Result.ok.injEq, reduceCtorEq, and_false, exists_false, or_false]
    exact ⟨fun ⟨hr, ht⟩ => ⟨a, hr.symm, rfl, ht⟩, fun ⟨_, hr, ha, ht⟩ => ⟨ha ▸ hr.symm, ht⟩⟩
  | error d u =>
    have hr : outcome p s = .ok (.error d) u := by simp only [outcome, h]
    simp only [hr, EStateM.Result.ok.injEq, EStateM.Result.error.injEq, reduceCtorEq, and_false,
      exists_false, false_or]
    exact ⟨fun ⟨hr, ht⟩ => ⟨d, hr.symm, rfl, ht⟩, fun ⟨_, hr, hd, ht⟩ => ⟨hd ▸ hr.symm, ht⟩⟩

theorem reads_expect {l : Lexeme} {a : Span} :
    Reads (expect l) s a t ↔ s.sees l ∧ a = s.currentSpan ∧ t = s.advance := by
  simp only [expect, reads_bind, reads_get, reads_ite, reads_advance, reads_pure, reads_unexpected,
    and_assoc, exists_eq_left, exists_and_left, exists_const, and_false, or_false]

theorem reads_accept {l : Lexeme} {b : Bool} :
    Reads (accept l) s b t ↔
      s.sees l ∧ b = true ∧ t = s.advance ∨ ¬s.sees l ∧ b = false ∧ t = s := by
  simp only [accept, reads_bind, reads_get, reads_ite, reads_advance, reads_pure, and_assoc,
    exists_eq_left, exists_and_left, exists_const]

theorem reads_name {expected : Expectation} {n : Name} :
    Reads (name expected) s n t ↔
      s.current? = some (.identifier n.text) ∧ n.span = s.currentSpan ∧ t = s.advance := by
  simp only [name, reads_bind, reads_get, and_assoc, exists_and_left, exists_eq_left]
  cases n with
  | mk text span =>
    split
    · rename_i found h
      simp only [reads_bind, reads_advance, reads_pure, exists_const, exists_eq_left, h,
        Option.some.injEq, Lexeme.identifier.injEq, Name.mk.injEq, and_assoc, @eq_comm _ found]
    · rename_i h
      simp only [reads_unexpected, false_iff]
      exact fun ⟨hn, _⟩ => h _ hn

theorem reads_close {delimiter : Delimiter} {list : Bool} {opener a : Span} :
    Reads (close delimiter list opener) s a t ↔
      s.sees delimiter.closer ∧ a = s.currentSpan ∧ t = s.advance := by
  simp only [close, reads_bind, reads_get, reads_ite, reads_advance, reads_pure, reads_throw,
    and_assoc, exists_eq_left, exists_and_left, exists_const, and_false, or_false]

theorem reads_operand {operator : Lexeme} {a : Unit} :
    Reads (operand operator) s a t ↔ s.atExpressionStart ∧ t = s := by
  simp only [operand, reads_bind, reads_get, reads_ite, reads_pure, reads_throw, and_assoc,
    exists_and_left, exists_eq_left, and_false, or_false, true_and]

end ApiScript.Grammar
