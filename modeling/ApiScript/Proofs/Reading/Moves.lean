import ApiScript.Proofs.Reading.Run

set_option autoImplicit false
set_option relaxedAutoImplicit false
set_option synthInstance.maxSize 2000

/-!
Every reader only moves forward: it leaves a run of tokens behind, adds diagnostics and changes
nothing else, whether it succeeds or fails. Readers that leave a token behind whenever they succeed
are told apart, since the loops of the grammar end by them.
-/

namespace ApiScript.Grammar

/-- From `s`, the tokens `ts` were left behind to come to `t`. -/
structure Moves (s : State) (ts : List Token) (t : State) : Prop where
  after : s.after = ts ++ t.after
  before : t.before = ts.reverse ++ s.before
  log : s.log <+: t.log
  area : t.area = s.area
  broken : t.broken = s.broken

namespace Moves

variable {s t u : State} {ts us : List Token}

theorem refl (s : State) : Moves s [] s := ⟨rfl, rfl, List.prefix_rfl, rfl, rfl⟩

theorem trans (h : Moves s ts t) (k : Moves t us u) : Moves s (ts ++ us) u where
  after := by rw [h.after, k.after, List.append_assoc]
  before := by rw [k.before, h.before, List.reverse_append, List.append_assoc]
  log := h.log.trans k.log
  area := k.area.trans h.area
  broken := k.broken.trans h.broken

theorem advance {next : Token} (h : s.after = next :: ts) : Moves s [next] s.advance := by
  constructor <;> simp [State.advance, h]

theorem report (s : State) (ds : List Diagnostic) : Moves s [] (s.report ds) :=
  ⟨rfl, rfl, List.prefix_append _ _, rfl, rfl⟩

theorem length (h : Moves s ts t) : s.after.length = ts.length + t.after.length := by
  rw [h.after, List.length_append]

end Moves

theorem skip_moves (surroundings : Surroundings) (must : Bool) (opened : Nat)
    (before after : List Token) :
    ∃ ts, after = ts ++ (skip surroundings must opened before after).2 ∧
      (skip surroundings must opened before after).1 = ts.reverse ++ before := by
  induction after generalizing must opened before with
  | nil => exact ⟨[], rfl, rfl⟩
  | cons t ts ih =>
    simp only [skip]
    split
    · exact ⟨[], rfl, rfl⟩
    · obtain ⟨us, hafter, hbefore⟩ := ih false (openBrackets opened t.lexeme) (t :: before)
      refine ⟨t :: us, ?_, ?_⟩
      · rw [List.cons_append, ← hafter]
      · rw [hbefore, List.reverse_cons, List.append_assoc, List.singleton_append]

/-- One state comes from another by moving forward. -/
def Reaches (s t : State) : Prop := ∃ ts, Moves s ts t

namespace Reaches

variable {s t u : State}

theorem refl (s : State) : Reaches s s := ⟨[], .refl s⟩

theorem trans (h : Reaches s t) (k : Reaches t u) : Reaches s u := by
  obtain ⟨ts, h⟩ := h
  obtain ⟨us, k⟩ := k
  exact ⟨ts ++ us, h.trans k⟩

theorem advance (s : State) : Reaches s s.advance := by
  cases h : s.after with
  | nil => simpa only [State.advance, h] using refl s
  | cons t ts => exact ⟨[t], .advance h⟩

theorem report (s : State) (ds : List Diagnostic) : Reaches s (s.report ds) := ⟨[], .report s ds⟩

theorem recover (s : State) (surroundings : Surroundings) (start : Nat) :
    Reaches s (s.recover surroundings start) := by
  obtain ⟨ts, hafter, hbefore⟩ :=
    skip_moves surroundings (s.before.length == start) 0 s.before s.after
  exact ⟨ts, hafter, hbefore, List.prefix_rfl, rfl, rfl⟩

theorem length_le (h : Reaches s t) : t.after.length ≤ s.after.length := by
  obtain ⟨ts, h⟩ := h
  rw [h.length]
  omega

theorem log (h : Reaches s t) : s.log <+: t.log := by
  obtain ⟨_, h⟩ := h
  exact h.log

end Reaches

class Advances {α : Type} (p : Parser α) : Prop where
  reads {s t : State} {a : α} : Reads p s a t → Reaches s t
  fails {s t : State} {d : Diagnostic} : Fails p s d t → Reaches s t

/-- Readers that leave a token behind whenever they succeed. -/
class Consumes {α : Type} (p : Parser α) : Prop where
  shorter {s t : State} {a : α} : Reads p s a t → t.after.length < s.after.length

section Combinators

variable {α β : Type}

instance (a : α) : Advances (pure a : Parser α) where
  reads h := by cases h; exact .refl _
  fails h := by cases h

instance (d : Diagnostic) : Advances (throw d : Parser α) where
  reads h := by cases h
  fails h := by cases h; exact .refl _

instance (d : Diagnostic) : Consumes (throw d : Parser α) where
  shorter h := by cases h

instance : Advances (get : Parser State) where
  reads h := by cases h; exact .refl _
  fails h := by cases h

instance : Advances advance where
  reads h := by cases h; exact .advance _
  fails h := by cases h

instance advances_bind (p : Parser α) (f : α → Parser β) [Advances p] [∀ a, Advances (f a)] :
    Advances (p >>= f) where
  reads h := by
    obtain ⟨a, t, hp, hf⟩ := reads_bind.1 h
    exact (Advances.reads hp).trans (Advances.reads hf)
  fails h := by
    rcases fails_bind.1 h with hp | ⟨a, t, hp, hf⟩
    · exact Advances.fails hp
    · exact (Advances.reads hp).trans (Advances.fails hf)

instance (p : Parser α) (f : α → Parser β) [Consumes p] [∀ a, Advances (f a)] :
    Consumes (p >>= f) where
  shorter h := by
    obtain ⟨a, t, hp, hf⟩ := reads_bind.1 h
    exact Nat.lt_of_le_of_lt (Advances.reads hf).length_le (Consumes.shorter hp)

instance (p : Parser α) (f : α → Parser β) [Advances p] [∀ a, Consumes (f a)] :
    Consumes (p >>= f) where
  shorter h := by
    obtain ⟨a, t, hp, hf⟩ := reads_bind.1 h
    exact Nat.lt_of_lt_of_le (Consumes.shorter hf) (Advances.reads hp).length_le

instance (p : Parser α) (f : α → β) [Advances p] : Advances (f <$> p) :=
  inferInstanceAs (Advances (p >>= fun a => pure (f a)))

instance (c : Prop) [Decidable c] (p q : Parser α) [Advances p] [Advances q] :
    Advances (if c then p else q) := by
  split <;> assumption

instance (c : Prop) [Decidable c] (p q : Parser α) [Consumes p] [Consumes q] :
    Consumes (if c then p else q) := by
  split <;> assumption

instance (p : Parser α) [Advances p] : Advances (outcome p) where
  reads h := by
    rcases reads_outcome.1 h with ⟨a, _, h⟩ | ⟨d, _, h⟩
    · exact Advances.reads h
    · exact Advances.fails h
  fails {s t d} h := by
    unfold Fails outcome at h
    split at h <;> cases h

instance (question : State → α) : Advances (ask question) :=
  inferInstanceAs (Advances (question <$> get))

instance (expected : Expectation) : Advances (unexpected expected : Parser α) := by
  unfold unexpected
  infer_instance

instance (expected : Expectation) : Consumes (unexpected expected : Parser α) := by
  unfold unexpected
  infer_instance

end Combinators

theorem State.advance_shorter {s : State} {l : Lexeme} (h : s.current? = some l) :
    s.advance.after.length < s.after.length := by
  cases hs : s.after with
  | nil => simp [State.current?, State.peek?, hs] at h
  | cons t ts => simp [State.advance, hs]

theorem State.log_advance (s : State) : s.advance.log = s.log := by
  unfold State.advance
  split <;> rfl

theorem State.after_of_current? {s : State} {l : Lexeme} (h : s.current? = some l) :
    ∃ x ts, s.after = x :: ts ∧ x.lexeme = l := by
  cases hafter : s.after with
  | nil => simp [State.current?, State.peek?, hafter] at h
  | cons x ts => exact ⟨x, ts, rfl, by simpa [State.current?, State.peek?, hafter] using h⟩

theorem State.current?_of_sees {s : State} {l : Lexeme} (h : s.sees l = true) :
    s.current? = some l := by
  simpa [State.sees] using h

section Basics

variable {α : Type}

instance (l : Lexeme) : Advances (expect l) := by
  unfold expect
  infer_instance

instance (l : Lexeme) : Consumes (expect l) where
  shorter h := by
    obtain ⟨hs, _, rfl⟩ := reads_expect.1 h
    exact State.advance_shorter (State.current?_of_sees hs)

instance (l : Lexeme) : Advances (accept l) := by
  unfold accept
  infer_instance

instance (expected : Expectation) : Advances (name expected) := by
  unfold name
  refine @advances_bind _ _ _ _ inferInstance fun s => ?_
  split <;> infer_instance

instance (expected : Expectation) : Consumes (name expected) where
  shorter h := by
    obtain ⟨hs, _, rfl⟩ := reads_name.1 h
    exact State.advance_shorter hs

instance (delimiter : Delimiter) (list : Bool) (opener : Span) :
    Advances (close delimiter list opener) := by
  unfold close
  infer_instance

instance (delimiter : Delimiter) (list : Bool) (opener : Span) :
    Consumes (close delimiter list opener) where
  shorter h := by
    obtain ⟨hs, _, rfl⟩ := reads_close.1 h
    exact State.advance_shorter (State.current?_of_sees hs)

instance (operator : Lexeme) : Advances (operand operator) := by
  unfold operand
  infer_instance

instance (step : α → Parser (Option α)) [∀ a, Advances (step a)] (bound : Nat) (a : α) :
    Advances (repeatWithin step bound a) := by
  induction bound generalizing a with
  | zero => exact inferInstanceAs (Advances (pure a))
  | succ bound ih =>
    unfold repeatWithin
    have rest : ∀ r : Option α, Advances (match r with
        | none => pure a
        | some b => repeatWithin step bound b : Parser α) := by
      rintro (_ | b)
      · exact inferInstanceAs (Advances (pure a))
      · exact ih b
    infer_instance

instance (step : α → Parser (Option α)) [∀ a, Advances (step a)] (a : α) :
    Advances (repeated step a) := by
  unfold repeated
  infer_instance

instance (step : Parser (Option α)) [Advances step] (first : List α) :
    Advances (collect step first) := by
  unfold collect
  infer_instance

instance (delimiter : Delimiter) (trailing : Bool) (opener : Span) (item : Parser α)
    [Advances item] :
    Advances (delimited delimiter trailing opener item) := by
  unfold delimited
  dsimp only
  infer_instance

end Basics

end ApiScript.Grammar
