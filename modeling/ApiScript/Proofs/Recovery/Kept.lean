import ApiScript.Proofs.Recovery.Brackets

set_option autoImplicit false
set_option relaxedAutoImplicit false
set_option synthInstance.maxSize 2000

/-!
No reader closes a bracket that was opened in front of where it began, whether it succeeds or fails.
A reader that closes one bracket of its surroundings is told apart, since it stands behind one that
opens a bracket.
-/

namespace ApiScript.Grammar

/-- The brackets `ks` and all that they are in are open. -/
def Above (ks : List (Nat × Delimiter)) (s : State) : Prop := ks <:+ openers s.before

/-- Whether the reader succeeds at `s` or fails, the state it leaves has the property. -/
structure Leaves {α : Type} (p : Parser α) (s : State) (P : State → Prop) : Prop where
  reads {a : α} {t : State} : Reads p s a t → P t
  fails {d : Diagnostic} {t : State} : Fails p s d t → P t

class Keeps {α : Type} (p : Parser α) : Prop where
  leaves {s : State} {ks : List (Nat × Delimiter)} : s.Nested → Above ks s → Leaves p s (Above ks)

class Opens {α : Type} (p : Parser α) : Prop where
  reads {s t : State} {ks : List (Nat × Delimiter)} {a : α} : Above ks s → Reads p s a t →
    ∃ k, Above (k :: ks) t
  fails {s t : State} {ks : List (Nat × Delimiter)} {d : Diagnostic} : Above ks s → Fails p s d t →
    Above ks t

/-- Readers that close at most one bracket that was open. -/
class Closes {α : Type} (p : Parser α) : Prop where
  leaves {s : State} {k : Nat × Delimiter} {ks : List (Nat × Delimiter)} :
    s.Nested → Above (k :: ks) s → Leaves p s (Above ks)

private theorem Above.tail {k : Nat × Delimiter} {ks : List (Nat × Delimiter)} {s : State}
    (h : Above (k :: ks) s) :
    Above ks s := (List.suffix_cons k ks).trans h

class Plain (l : Lexeme) : Prop where
  opens : l.opens? = none
  closes : l.closes? = none

instance (k : Keyword) : Plain (.keyword k) := ⟨rfl, rfl⟩
instance (text : String) : Plain (.identifier text) := ⟨rfl, rfl⟩
instance (kind : NumberClass) (text : String) : Plain (.number kind text) := ⟨rfl, rfl⟩
instance (kind : StringClass) (raw : String) : Plain (.string kind raw) := ⟨rfl, rfl⟩
instance : Plain (.symbol .comma) := ⟨rfl, rfl⟩
instance : Plain (.symbol .colon) := ⟨rfl, rfl⟩
instance : Plain (.symbol .dot) := ⟨rfl, rfl⟩
instance : Plain (.symbol .assign) := ⟨rfl, rfl⟩
instance : Plain (.symbol .scope) := ⟨rfl, rfl⟩
instance : Plain (.symbol .star) := ⟨rfl, rfl⟩
instance : Plain (.symbol .bar) := ⟨rfl, rfl⟩
instance : Plain (.symbol .or) := ⟨rfl, rfl⟩
instance : Plain (.symbol .arrow) := ⟨rfl, rfl⟩
instance : Plain (.symbol .fatArrow) := ⟨rfl, rfl⟩
instance : Plain (.symbol .minus) := ⟨rfl, rfl⟩
instance : Plain (.symbol .pipe) := ⟨rfl, rfl⟩
instance : Plain (.symbol .range) := ⟨rfl, rfl⟩
instance : Plain (.symbol .rangeInclusive) := ⟨rfl, rfl⟩

instance (op : UnaryOp) : Plain op.lexeme := by cases op <;> exact ⟨rfl, rfl⟩
instance (op : BinaryOp) : Plain op.lexeme := by cases op <;> exact ⟨rfl, rfl⟩

section Advance

variable {s : State} {l : Lexeme} {ks : List (Nat × Delimiter)}

private theorem before_advance (h : s.current? = some l) :
    ∃ t, t.lexeme = l ∧ s.advance.before = t :: s.before := by
  cases hs : s.after with
  | nil => simp [State.current?, State.peek?, hs] at h
  | cons t ts =>
    exact ⟨t, by simpa [State.current?, State.peek?, hs] using h, by simp [State.advance, hs]⟩

theorem Above.plain [Plain l] (h : Above ks s) (hl : s.current? = some l) : Above ks s.advance := by
  obtain ⟨t, rfl, hbefore⟩ := before_advance hl
  rwa [Above, hbefore, openers_plain Plain.opens Plain.closes]

private theorem openers_advance {d : Delimiter} (hl : s.current? = some l)
    (hd : l.opens? = some d) :
    openers s.advance.before = (s.before.length, d) :: openers s.before := by
  obtain ⟨t, rfl, hbefore⟩ := before_advance hl
  rw [hbefore, openers_opens hd]

theorem above_opener {d : Delimiter} (hs : s.sees l = true) (hd : l.opens? = some d) :
    Above ((s.before.length, d) :: openers s.before) s.advance :=
  ⟨[], (openers_advance (State.current?_of_sees hs) hd).symm⟩

theorem Above.opens {d : Delimiter} (h : Above ks s) (hl : s.current? = some l)
    (hd : l.opens? = some d) :
    ∃ k, Above (k :: ks) s.advance := by
  obtain ⟨js, hjs⟩ := h
  obtain ⟨is, k, hk⟩ : ∃ is k, (s.before.length, d) :: js = is ++ [k] :=
    ⟨_, _, (List.dropLast_concat_getLast (List.cons_ne_nil _ _)).symm⟩
  refine ⟨k, is, ?_⟩
  rw [openers_advance hl hd, ← hjs, ← List.cons_append, hk, List.append_assoc,
    List.singleton_append]

private theorem Above.advance {k : Nat × Delimiter} (h : Above (k :: ks) s)
    (hl : s.current? = some l) :
    Above ks s.advance := by
  obtain ⟨t, rfl, hbefore⟩ := before_advance hl
  rw [Above, hbefore]
  simp only [openers]
  split
  · exact h.tail.trans (List.suffix_cons _ _)
  · obtain ⟨js, hjs⟩ := h
    rw [← hjs]
    cases js with
    | nil => exact List.suffix_rfl
    | cons j js => exact (List.suffix_cons k ks).trans (List.suffix_append js _)
  · exact h.tail

end Advance

section Combinators

variable {α β : Type}

instance (a : α) : Keeps (pure a : Parser α) where
  leaves _ h := ⟨fun hr => by cases hr; exact h, nofun⟩

instance (d : Diagnostic) : Keeps (throw d : Parser α) where
  leaves _ h := ⟨nofun, fun hf => by cases hf; exact h⟩

instance : Keeps (get : Parser State) where
  leaves _ h := ⟨fun hr => by cases hr; exact h, nofun⟩

instance (ds : List Diagnostic) : Keeps (modify (·.report ds) : Parser Unit) where
  leaves _ h := ⟨fun hr => by cases hr; exact h, nofun⟩

instance (priority := low) (p : Parser α) [Keeps p] : Closes p where
  leaves hs h := Keeps.leaves hs h.tail

theorem Leaves.bind {p : Parser α} {f : α → Parser β} {s : State} {P Q : State → Prop} [Advances p]
    (hs : s.Nested) (hp : ∀ {a t}, Reads p s a t → P t) (hf : ∀ {d t}, Fails p s d t → Q t)
    (h : ∀ a t, t.Nested → P t → Leaves (f a) t Q) : Leaves (p >>= f) s Q where
  reads hr := by
    obtain ⟨a, t, ha, hr⟩ := reads_bind.1 hr
    exact (h a t (hs.reaches (Advances.reads ha)) (hp ha)).reads hr
  fails hr := by
    rcases fails_bind.1 hr with hr | ⟨a, t, ha, hr⟩
    · exact hf hr
    · exact (h a t (hs.reaches (Advances.reads ha)) (hp ha)).fails hr

instance keeps_bind (p : Parser α) (f : α → Parser β) [Advances p] [Keeps p] [∀ a, Keeps (f a)] :
    Keeps (p >>= f) where
  leaves hs h := .bind hs (Keeps.leaves hs h).reads (Keeps.leaves hs h).fails fun _ _ hs h =>
    Keeps.leaves hs h

instance (p : Parser α) (f : α → Parser β) [Advances p] [Opens p] [∀ a, Closes (f a)] :
    Keeps (p >>= f) where
  leaves hs h := .bind hs (Opens.reads h) (Opens.fails h) fun _ _ hs ⟨_, h⟩ => Closes.leaves hs h

instance (p : Parser α) (f : α → Parser β) [Advances p] [Keeps p] [∀ a, Closes (f a)] :
    Closes (p >>= f) where
  leaves hs h := .bind hs (Keeps.leaves hs h).reads (Keeps.leaves hs h.tail).fails fun _ _ hs h =>
    Closes.leaves hs h

instance (p : Parser α) (f : α → Parser β) [Advances p] [Closes p] [∀ a, Keeps (f a)] :
    Closes (p >>= f) where
  leaves hs h := .bind hs (Closes.leaves hs h).reads (Closes.leaves hs h).fails fun _ _ hs h =>
    Keeps.leaves hs h

instance (p : Parser α) (f : α → β) [Advances p] [Keeps p] : Keeps (f <$> p) :=
  inferInstanceAs (Keeps (p >>= fun a => pure (f a)))

instance (c : Prop) [Decidable c] (p q : Parser α) [Keeps p] [Keeps q] :
    Keeps (if c then p else q) := by
  split <;> assumption

instance (c : Prop) [Decidable c] (p q : Parser α) [Closes p] [Closes q] :
    Closes (if c then p else q) := by
  split <;> assumption

private theorem Leaves.outcome {p : Parser α} {s : State} {P : State → Prop} (h : Leaves p s P) :
    Leaves (outcome p) s P where
  reads hr := by
    rcases reads_outcome.1 hr with ⟨a, _, hr⟩ | ⟨d, _, hr⟩
    · exact h.reads hr
    · exact h.fails hr
  fails {d t} hf := by
    unfold Fails Grammar.outcome at hf
    split at hf <;> cases hf

instance (p : Parser α) [Closes p] : Closes (outcome p) :=
  ⟨fun hs h => (Closes.leaves hs h).outcome⟩

instance (question : State → α) : Keeps (ask question) := inferInstanceAs (Keeps (question <$> get))

instance (expected : Expectation) : Keeps (unexpected expected : Parser α) := by
  unfold unexpected
  infer_instance

theorem Leaves.get_bind {f : State → Parser α} {s : State} {P : State → Prop}
    (h : Leaves (f s) s P) :
    Leaves (get >>= f) s P := ⟨h.reads, h.fails⟩

theorem Keeps.get_bind {f : State → Parser α}
    (h : ∀ s ks, s.Nested → Above ks s → Leaves (f s) s (Above ks)) : Keeps (get >>= f) :=
  ⟨fun hs ha => .get_bind (h _ _ hs ha)⟩

variable {s : State} {l : Lexeme} {ks : List (Nat × Delimiter)} {f : Unit → Parser α}

theorem Leaves.advance_bind {P : State → Prop} (h : Leaves (f ()) s.advance P) :
    Leaves (advance >>= f) s P :=
  ⟨h.reads, h.fails⟩

theorem Leaves.plain [Plain l] [Keeps (f ())] (hl : s.current? = some l) (hs : s.Nested)
    (h : Above ks s) :
    Leaves (advance >>= f) s (Above ks) :=
  .advance_bind (Keeps.leaves hs.advance (h.plain hl))

theorem Leaves.opens {d : Delimiter} [Closes (f ())] (hl : s.current? = some l)
    (hd : l.opens? = some d) (hs : s.Nested) (h : Above ks s) :
    Leaves (advance >>= f) s (Above ks) := by
  obtain ⟨k, hk⟩ := h.opens hl hd
  exact .advance_bind (Closes.leaves hs.advance hk)

end Combinators

section Basics

variable {α : Type}

instance (l : Lexeme) [Plain l] : Keeps (expect l) := by
  unfold expect
  refine .get_bind fun s ks hs h => ?_
  split
  · exact .plain (State.current?_of_sees ‹_›) hs h
  · exact Keeps.leaves hs h

private theorem opens_expect {l : Lexeme} {d : Delimiter} (hd : l.opens? = some d) :
    Opens (expect l) where
  reads h hr := by
    obtain ⟨hs, _, rfl⟩ := reads_expect.1 hr
    exact h.opens (State.current?_of_sees hs) hd
  fails {s t ks _} h hf := by
    have hleaves : Leaves (expect l) s (Above ks) := by
      unfold expect
      refine .get_bind ?_
      split
      · obtain ⟨k, hk⟩ := h.opens (State.current?_of_sees ‹_›) hd
        exact .advance_bind ⟨fun hr => by cases hr; exact hk.tail, nofun⟩
      · exact ⟨nofun, fun hf => by cases hf; exact h⟩
    exact hleaves.fails hf

instance : Opens (expect (.symbol .leftParen)) := opens_expect rfl

instance : Opens (expect (.symbol .leftBracket)) := opens_expect rfl

instance : Opens (expect (.symbol .leftBrace)) := opens_expect rfl

instance (l : Lexeme) [Plain l] : Keeps (accept l) := by
  unfold accept
  refine .get_bind fun s ks hs h => ?_
  split
  · exact .plain (State.current?_of_sees ‹_›) hs h
  · exact Keeps.leaves hs h

instance (expected : Expectation) : Keeps (name expected) := by
  unfold name
  refine .get_bind fun s ks hs h => ?_
  split
  · exact .plain ‹_› hs h
  · exact Keeps.leaves hs h

instance (list : Bool) (opener : Span) : Keeps (close .bar list opener) := by
  unfold close
  refine .get_bind fun s ks hs h => ?_
  split
  · exact .plain (l := .symbol .bar) (State.current?_of_sees ‹_›) hs h
  · exact Keeps.leaves hs h

instance (delimiter : Delimiter) (list : Bool) (opener : Span) :
    Closes (close delimiter list opener) where
  leaves hs h := by
    unfold close
    refine .get_bind ?_
    split
    · exact .advance_bind (Keeps.leaves hs.advance (h.advance (State.current?_of_sees ‹_›)))
    · exact Keeps.leaves hs h.tail

instance (operator : Lexeme) : Keeps (operand operator) := by
  unfold operand
  infer_instance

instance (step : α → Parser (Option α)) [∀ a, Advances (step a)] [∀ a, Keeps (step a)]
    (bound : Nat) (a : α) :
    Keeps (repeatWithin step bound a) := by
  induction bound generalizing a with
  | zero => exact inferInstanceAs (Keeps (pure a))
  | succ bound ih =>
    unfold repeatWithin
    have rest : ∀ r : Option α, Keeps (match r with
        | none => pure a
        | some b => repeatWithin step bound b : Parser α) := by
      rintro (_ | b)
      · exact inferInstanceAs (Keeps (pure a))
      · exact ih b
    infer_instance

instance (step : α → Parser (Option α)) [∀ a, Advances (step a)] [∀ a, Keeps (step a)] (a : α) :
    Keeps (repeated step a) := by
  unfold repeated
  infer_instance

instance (step : Parser (Option α)) [Advances step] [Keeps step] (first : List α) :
    Keeps (collect step first) := by
  unfold collect
  infer_instance

instance (trailing : Bool) (opener : Span) (item : Parser α) [Advances item] [Keeps item] :
    Keeps (delimited .bar trailing opener item) := by
  unfold delimited
  dsimp only
  infer_instance

instance (delimiter : Delimiter) (trailing : Bool) (opener : Span) (item : Parser α) [Advances item]
    [Keeps item] : Closes (delimited delimiter trailing opener item) := by
  unfold delimited
  dsimp only
  infer_instance

end Basics

end ApiScript.Grammar
