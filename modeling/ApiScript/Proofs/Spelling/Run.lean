import ApiScript.Proofs.Spelling.Declaration

set_option autoImplicit false
set_option relaxedAutoImplicit false

/-!
Runs stand for the tokens they were read from.
-/

namespace ApiScript.Grammar

variable {inner : Inner} [∀ e, Advances (inner e)] {s t : State}

private theorem Wrote.variations? (hi : Writes inner) {v : Option Variations}
    (h : Reads (variations? inner) s v t) :
    Wrote s (match v with
      | none => []
      | some v => v.marks) t := by
  simp only [Grammar.variations?, reads_bind, reads_get, reads_accept, reads_ite, reads_pure,
    and_assoc, exists_and_left, exists_eq_left] at h
  obtain ⟨_, s₁, ⟨hwith, rfl, rfl⟩ | ⟨_, rfl, rfl⟩, h⟩ := h
  · obtain ⟨_, s₂, ⟨hzip, rfl, rfl⟩ | ⟨_, rfl, rfl⟩, h⟩ := (h.resolve_right (by simp)).2
    · obtain ⟨axes, _, haxes, rfl, rfl⟩ := h
      have haxes := Wrote.object hi haxes
      simp only [↓reduceIte, Variations.marks]
      exact .node ((Wrote.plain hwith).cons ((Wrote.plain hzip).cons haxes))
        ((Spans.token (State.current?_of_sees hwith)).merge (.advance _)
        (haxes.spans axes.marks_isNode))
    · obtain ⟨axes, _, haxes, rfl, rfl⟩ := h
      have haxes := Wrote.object hi haxes
      simp only [Variations.marks]
      exact .node ((Wrote.plain hwith).cons haxes)
        ((Spans.token (State.current?_of_sees hwith)).merge (.refl _)
        (haxes.spans axes.marks_isNode))
  · obtain ⟨rfl, rfl⟩ := (h.resolve_left (by simp)).2
    exact .nil _

private theorem Wrote.stepName {n : Name} (hs : s.atStepStart = true) (h : Reads stepName s n t) :
    Wrote s n.stepMarks t := by
  simp only [Grammar.stepName, reads_bind, reads_get, reads_advance, reads_pure, and_assoc,
    exists_and_left, exists_eq_left, exists_const] at h
  obtain ⟨rfl, rfl⟩ := h
  unfold State.atStepStart State.startsStep at hs
  split at hs
  · rename_i next colon rest ha
    have hsees : s.sees next.lexeme = true := State.sees_iff.2 ⟨next, _, ha, rfl⟩
    have hcurrent := State.current?_of_sees hsees
    simp only [hcurrent, Option.map_some, Option.getD_some]
    refine .node ((Wrote.plain hsees).congr fun hsound => ?_) (.token hcurrent)
    have hgenuine := hsound.genuine next (State.Sound.mem_after (by simp [ha]))
    rw [Bool.and_eq_true] at hs
    cases hnext : next.lexeme with
    | identifier text =>
      rw [hnext] at hgenuine
      simp only [Name.lexeme, Lexeme.spelling]
      rw [show Lexeme.ofWord text = .identifier text from hgenuine]
    | keyword k =>
      rw [hnext] at hs
      cases k <;> rfl
    | _ => simp [hnext] at hs
  · cases hs

theorem Wrote.step (hi : Writes inner) {i : RunItem} (hs : s.atStepStart = true)
    (h : Reads (step inner) s i t) :
    Wrote s i.marks t ∧ i.open_ = false := by
  have hread := h
  simp only [Grammar.step, reads_bind, reads_get, reads_ite, reads_pure, reads_upToHere, and_assoc,
    exists_and_left, exists_eq_left] at h
  obtain ⟨n, s₁, hn, _, s₂, hcolon, operation, s₃, hoperation, h⟩ := h
  have hspan : Spans s (n.span.merge t.previousSpan) t := by
    simp only [Grammar.stepName, reads_bind, reads_get, reads_advance, reads_pure, and_assoc,
      exists_and_left, exists_eq_left, exists_const] at hn
    rw [hn.1]
    exact .ofReads hread (.refl t)
  have hw := ((Wrote.stepName hs hn).append (.expect hcolon)).append (.anyName hoperation)
  rcases h with ⟨_, args, _, hargs, rfl, rfl⟩ | ⟨_, rfl, rfl⟩
  · rw [RunItem.marks]
    exact ⟨.node (hw.append (.object hi hargs)) hspan, rfl⟩
  · rw [RunItem.marks]
    exact ⟨.node (hw.append (.nil _)) hspan, rfl⟩

omit [∀ e, Advances (inner e)] in
theorem Wrote.path {i : RunItem} (h : Reads path s i t) : Wrote s i.marks t ∧ i.open_ = false := by
  have hread := h
  simp only [Grammar.path, reads_bind, reads_pure, reads_upToHere, and_assoc, exists_and_left,
    exists_eq_left] at h
  obtain ⟨start, s₁, hstart, _, s₂, hcolon, n, s₃, hn, chain, s₄, hchain, rfl, rfl⟩ := h
  have hsome {s t : State} {n : Name} (h : Reads (do
      if ← Grammar.accept (.symbol .arrow) then return some (← Grammar.name .pathStep) else
        return none) s (some n) t) :
      s.sees (.symbol .arrow) = true ∧ Reads (Grammar.name .pathStep) s.advance n t := by
    simp only [reads_bind, reads_accept, reads_ite, reads_pure, reduceCtorEq, false_and, and_false,
      or_false, Option.some.injEq] at h
    obtain ⟨_, _, ⟨hs, rfl, rfl⟩ | ⟨_, rfl, rfl⟩, hn⟩ := h
    · obtain ⟨n, _, hn, rfl, rfl⟩ := hn.2
      exact ⟨hs, hn⟩
    · simp at hn
  obtain ⟨rest, rfl, hrest⟩ := (reads_collect fun h => by
    obtain ⟨hs, hn⟩ := hsome h
    exact Nat.lt_of_le_of_lt (Advances.reads hn).length_le
      (State.advance_shorter (State.current?_of_sees hs))).1
    hchain
  have hnames : Wrote s₂ (Mark.separated .arrow (Name.marksEach ([n] ++ rest))) t := by
    refine (Wrote.anyName hn).append (hrest.wrote (·.marks .any) (fun h => ?_) fun h => ?_)
    · simp only [reads_bind, reads_accept, reads_ite, reads_pure, reduceCtorEq, false_and,
        and_false, exists_false, false_or] at h
      obtain ⟨_, _, ⟨_, rfl, rfl⟩ | ⟨_, rfl, rfl⟩, h⟩ := h
      · simp at h
      · exact h.2.2
    · obtain ⟨hs, hn⟩ := hsome h
      exact (Wrote.plain hs).cons (.anyName hn)
  rw [RunItem.marks]
  exact ⟨.node ((Wrote.expect hstart).cons ((Wrote.expect hcolon).cons hnames))
    (.upToHere hread hstart), rfl⟩

private theorem Wrote.runItem (hi : Writes inner) {i : RunItem} (h : Reads (runItem inner) s i t) :
    Wrote s i.marks t ∧ (i.open_ = true → t.Settled) := by
  unfold Grammar.runItem at h
  rw [reads_get_bind, reads_ite, reads_ite] at h
  rcases h with ⟨_, h⟩ | ⟨_, ⟨hs, h⟩ | ⟨_, h⟩⟩
  · obtain ⟨hw, hclosed⟩ := Wrote.path h
    exact ⟨hw, fun hopen => by rw [hclosed] at hopen; cases hopen⟩
  · obtain ⟨hw, hclosed⟩ := Wrote.step hi hs h
    exact ⟨hw, fun hopen => by rw [hclosed] at hopen; cases hopen⟩
  · obtain ⟨d, s₁, hd, hrest⟩ := reads_bind.1 h
    rcases Wrote.declaration? hi hd with ⟨rfl, rfl⟩ | ⟨d, rfl, hw, hsettled⟩
    · exact (reads_unexpected.1 hrest).elim
    · obtain ⟨rfl, rfl⟩ := reads_pure.1 hrest
      rw [RunItem.marks]
      exact ⟨.node hw (hw.spans d.marks_isNode), hsettled⟩

theorem Wrote.run (hi : Writes inner) {r : Run} (h : Reads (run inner) s r t) :
    Wrote s r.marks t := by
  have hread := h
  simp only [Grammar.run, reads_bind, reads_get, reads_ite, and_assoc, exists_and_left,
    exists_eq_left] at h
  obtain ⟨start, s₁, hstart, ⟨_, h⟩ | ⟨_, h⟩⟩ := h
  · simp only [Grammar.runBlock, reads_bind, reads_pure] at h
    obtain ⟨opener, s₂, hopener, items, s₃, hitems, closer, _, hcloser, rfl, rfl⟩ := h
    rw [reads_statements atBlockEnd_of_atEnd] at hitems
    have hopener := Wrote.expect hopener
    have hitems :=
      hitems.wrote (fun h => (Wrote.runItem hi h).1) (fun h => (Wrote.runItem hi h).2) (b := false)
      (by simp)
    rw [Run.marks, RunItem.marksAll_eq_flatMap]
    exact .node (((Wrote.expect hstart).cons (hopener.cons hitems)).append (.close hcloser))
      ((Spans.expect hstart).merge (hopener.reaches.trans hitems.reaches) (.close hcloser))
  · simp only [Grammar.inlineRun, reads_bind, reads_pure, reads_upToHere, and_assoc,
      exists_and_left, exists_eq_left] at h
    obtain ⟨target, s₂, htarget, args, s₃, hargs, variations, _, hvariations, rfl, rfl⟩ := h
    have hw := (((Wrote.expect hstart).append (.anyName htarget)).append
      (.optionalObject hi hargs)).append
      (.variations? hi hvariations)
    have hspan := Spans.upToHere hread hstart
    cases args <;> cases variations <;>
    · rw [Run.marks]
      exact .node hw hspan

end ApiScript.Grammar
