import ApiScript.Proofs.Places.Within
import ApiScript.Proofs.Shape.Basic

set_option autoImplicit false
set_option relaxedAutoImplicit false
set_option synthInstance.maxSize 2000

/-!
Readers that answer with sound nodes, as long as all they report is told by the scope. What a reader
goes on with has been answered by a reader itself, so that it goes on with values that fit.
-/

namespace ApiScript

open HasNodes (nodes)

theorem Fits.of_some {α : Type} [HasNodes α] {scope : Scope} {a : α} (h : Fits scope (some a)) :
    Fits scope a :=
  ⟨by simpa [nodes] using h.sound⟩

namespace Grammar

instance : HasNodes State := ⟨fun _ => []⟩

instance {α : Type} [HasNodes α] : HasNodes (Except Diagnostic α) := ⟨fun
  | .ok a => nodes a
  | .error _ => []⟩

instance (scope : Scope) (s : State) : Fits scope s := ⟨by simp [nodes]⟩

/-- From the state, the answers of the reader fit, if all that has been reported is in the log of
the scope. -/
structure YieldsAt {α : Type} [HasNodes α] (scope : Scope) (p : Parser α) (s : State) : Prop where
  fits {a : α} {t : State} : t.log ⊆ scope.log → Reads p s a t → Fits scope a

class Yields {α : Type} [HasNodes α] (scope : Scope) (p : Parser α) : Prop where
  yields {s t : State} {a : α} : s.Within scope.source → t.log ⊆ scope.log → Reads p s a t →
    Fits scope a

section Combinators

variable {α β : Type} [HasNodes α] [HasNodes β] {scope : Scope}

instance (priority := low) (p : Parser α) [h : ∀ a : α, Fits scope a] : Yields scope p :=
  ⟨fun _ _ _ => h _⟩

instance (a : α) [h : Fits scope a] : Yields scope (pure a : Parser α) where
  yields _ _ hr := by
    cases hr
    exact h

instance (d : Diagnostic) : Yields scope (throw d : Parser α) where
  yields _ _ hr := by cases hr

instance (expected : Expectation) : Yields scope (unexpected expected : Parser α) where
  yields _ _ hr := by cases hr

omit [HasNodes α] in
theorem YieldsAt.bind_reads {p : Parser α} {f : α → Parser β} {s : State} [Advances p]
    (hs : s.Within scope.source)
    (h : ∀ a t, Reads p s a t → t.Within scope.source → YieldsAt scope (f a) t) :
    YieldsAt scope (p >>= f) s where
  fits hlog hr := by
    obtain ⟨a, t, ha, hb⟩ := reads_bind.1 hr
    exact (h a t ha (hs.reaches (Advances.reads ha))).fits hlog hb

theorem YieldsAt.bind {p : Parser α} {f : α → Parser β} {s : State} [Advances p]
    [∀ a, Advances (f a)] [Yields scope p] (hs : s.Within scope.source)
    (h : ∀ a t, Reads p s a t → t.Within scope.source → Fits scope a → YieldsAt scope (f a) t) :
    YieldsAt scope (p >>= f) s where
  fits hlog hr := by
    obtain ⟨a, t, ha, hb⟩ := reads_bind.1 hr
    have hfits := Yields.yields hs (List.Subset.trans (Advances.reads hb).log.subset hlog) ha
    exact (h a t ha (hs.reaches (Advances.reads ha)) hfits).fits hlog hb

theorem YieldsAt.get_bind {f : State → Parser α} {s : State} (h : YieldsAt scope (f s) s) :
    YieldsAt scope (get >>= f) s := ⟨h.fits⟩

omit [HasNodes α] in
theorem YieldsAt.pure_bind {a : α} {f : α → Parser β} {s : State} (h : YieldsAt scope (f a) s) :
    YieldsAt scope (pure a >>= f) s := ⟨h.fits⟩

theorem YieldsAt.ofYields {p : Parser α} [Yields scope p] {s : State} (hs : s.Within scope.source) :
    YieldsAt scope p s :=
  ⟨Yields.yields hs⟩

theorem Yields.ofYieldsAt {p : Parser α} (h : ∀ s, s.Within scope.source → YieldsAt scope p s) :
    Yields scope p :=
  ⟨fun hs => (h _ hs).fits⟩

instance yields_bind (p : Parser α) (f : α → Parser β) [Advances p] [∀ a, Advances (f a)]
    [Yields scope p] [h : ∀ a : {a : α // Fits scope a}, Yields scope (f a.1)] :
    Yields scope (p >>= f) where
  yields hs := (YieldsAt.bind hs fun a _ _ ht ha => ⟨(h ⟨a, ha⟩).yields ht⟩).fits

theorem Yields.get_bind {f : State → Parser α}
    (h : ∀ s, s.Within scope.source → Yields scope (f s)) :
    Yields scope (get >>= f) where
  yields hs hlog hr := (h _ hs).yields hs hlog hr

instance (c : Prop) [Decidable c] (p q : Parser α) [Yields scope p] [Yields scope q] :
    Yields scope (if c then p else q) := by
  split <;> assumption

instance (p : Parser α) [Yields scope p] : Yields scope (outcome p) where
  yields hs hlog hr := by
    rcases reads_outcome.1 hr with ⟨a, rfl, ha⟩ | ⟨d, rfl, -⟩
    · exact ⟨(Yields.yields hs hlog ha : Fits scope a).sound⟩
    · exact ⟨List.forall_mem_nil _⟩

end Combinators

section Basics

variable {α : Type} [HasNodes α] {scope : Scope}

theorem State.Within.fits_name {s : State} (hs : s.Within scope.source) {text : String}
    (hcurrent : s.current? = some (.identifier text)) :
    Fits scope (Name.mk text s.currentSpan) := by
  have hholds : s.currentSpan.Holds scope.source text := (hs.shows hcurrent (by simp)).slice
  have hidentifier : Lexeme.IsIdentifier text := by
    obtain ⟨next, rest, ha, hl⟩ := State.sees_iff.1 (State.sees_of_current? hcurrent)
    obtain ⟨_, _, _, hat⟩ := hs.tokens
    have hmem := (hat next (State.Sound.mem_after (by simp [ha]))).1
    have hworded := Lexer.steps_worded _ _ next (List.mem_filter.1 hmem).1
    rwa [hl] at hworded
  exact .ofParts () rfl rfl hholds hidentifier fun _ _ hm => absurd hm List.not_mem_nil

instance (expected : Expectation) : Yields scope (name expected) := by
  unfold name
  refine .get_bind fun s hs => ?_
  split
  · have := hs.fits_name ‹_›
    infer_instance
  · infer_instance

instance (step : α → Parser (Option α)) [∀ a, Advances (step a)]
    [∀ a : {a : α // Fits scope a}, Yields scope (step a.1)] (bound : Nat) (a : α) [Fits scope a] :
    Yields scope (repeatWithin step bound a) := by
  induction bound generalizing a with
  | zero => exact inferInstanceAs (Yields scope (pure a))
  | succ bound ih =>
    unfold repeatWithin
    have first : Yields scope (step a) :=
      inferInstanceAs (Yields scope (step (⟨a, inferInstance⟩ : {a // Fits scope a}).1))
    have moves : ∀ r : Option α, Advances (match r with
        | none => pure a
        | some b => repeatWithin step bound b : Parser α) := by
      rintro (_ | b) <;> infer_instance
    have rest : ∀ r : {r : Option α // Fits scope r}, Yields scope (match r.1 with
        | none => pure a
        | some b => repeatWithin step bound b : Parser α) := by
      rintro ⟨_ | b, hr⟩
      · exact inferInstanceAs (Yields scope (pure a))
      · have := hr.of_some
        exact ih b
    infer_instance

instance (step : α → Parser (Option α)) [∀ a, Advances (step a)]
    [∀ a : {a : α // Fits scope a}, Yields scope (step a.1)] (a : α) [Fits scope a] :
    Yields scope (repeated step a) := by
  unfold repeated
  infer_instance

instance (step : Parser (Option α)) [Advances step] [Yields scope step] (first : List α)
    [Fits scope first] :
    Yields scope (collect step first) := by
  unfold collect
  have rest (items : {items : List α // Fits scope items}) (a : {a : Option α // Fits scope a}) :
      Fits scope (a.1.map (items.1 ++ [·])) := by
    obtain ⟨_ | a, ha⟩ := a
    · exact inferInstanceAs (Fits scope none)
    · have := ha.of_some
      exact inferInstanceAs (Fits scope (some (items.1 ++ [a])))
  infer_instance

instance (delimiter : Delimiter) (trailing : Bool) (opener : Span) (item : Parser α) [Advances item]
    [Yields scope item] : Yields scope (delimited delimiter trailing opener item) := by
  unfold delimited
  dsimp only
  infer_instance

instance (surroundings : Surroundings) (atEnd : State → Bool) (statement : Parser α)
    [Advances statement] [Yields scope statement] :
    Yields scope (statements surroundings atEnd statement) := by
  unfold statements
  have moves : ∀ (items : List α) (start : Nat) (r : Except Diagnostic α), Advances (match r with
      | .ok item => return some (items ++ [item])
      | .error d => do
        modify fun t => (t.report [d]).recover surroundings start
        return some items : Parser (Option (List α))) := by
    rintro items start (d | item) <;> infer_instance
  have rest : ∀ (items : {items : List α // Fits scope items}) (start : Nat)
      (r : {r : Except Diagnostic α // Fits scope r}), Yields scope (match r.1 with
      | .ok item => return some (items.1 ++ [item])
      | .error d => do
        modify fun t => (t.report [d]).recover surroundings start
        return some items.1 : Parser (Option (List α))) := by
    rintro items start ⟨d | a, hr⟩
    · infer_instance
    · have : Fits scope a := ⟨hr.sound⟩
      infer_instance
  infer_instance

end Basics

end Grammar

end ApiScript
