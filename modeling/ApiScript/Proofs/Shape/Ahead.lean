import ApiScript.Proofs.Shape.Basic
import ApiScript.Proofs.Spelling.Declaration

set_option autoImplicit false
set_option relaxedAutoImplicit false

/-!
What the tokens ahead say of what is read: the questions of the grammar are asked of tokens that the
readers get to later, and are answered by what they read there.
-/

namespace ApiScript.Grammar

variable {s t : State}

namespace State

theorem peek?_advance (s : State) (n : Nat) : s.advance.peek? n = s.peek? (n + 1) := by
  unfold State.advance State.peek?
  cases hs : s.after with
  | nil => simp [hs]
  | cons next rest => rfl

theorem sees_of_peek?_eq {l : Lexeme} (h : s.peek? 0 = some l) : s.sees l = true := by
  rw [State.sees, State.current?, h, beq_self_eq_true]

theorem behindSign_of_atInteger (h : s.atInteger = true) :
    ∃ raw, s.behindSign.current? = some (.number .integer raw) := by
  unfold State.atInteger at h
  unfold State.behindSign
  split at h
  · rename_i raw hcurrent
    refine ⟨raw, ?_⟩
    split
    · rename_i hsign
      obtain ⟨minus, _, _, ha, hminus, -⟩ := State.atNegativeNumber_iff.1 hsign
      simp [State.current?, State.peek?, ha, hminus] at hcurrent
    · exact hcurrent
  · rename_i raw _ hpeek
    refine ⟨raw, ?_⟩
    rw [if_pos h, State.current?, peek?_advance, hpeek]
  · cases h

theorem current?_of_atStepStart (h : s.atStepStart = true) :
    (∃ text, s.current? = some (.identifier text)) ∨ ∃ k ∈ [Keyword.profile, .run, .path],
    s.current? = some (.keyword k) := by
  unfold State.atStepStart State.startsStep at h
  split at h
  · rename_i next _ _ ha
    have hcurrent : s.current? = some next.lexeme := by simp [State.current?, State.peek?, ha]
    rw [hcurrent]
    split at h
    · exact .inl ⟨_, congrArg some ‹_›⟩
    · exact .inr ⟨.profile, by decide, congrArg some ‹_›⟩
    · exact .inr ⟨.run, by decide, congrArg some ‹_›⟩
    · exact .inr ⟨.path, by decide, congrArg some ‹_›⟩
    · cases h
  · cases h

end State

theorem integer_of_reads_literal {inner : Inner} (hs : s.atInteger = true) {l : Literal}
    (h : Reads (literal inner) s l t) : l.integer?.isSome := by
  obtain ⟨raw, hraw⟩ := State.behindSign_of_atInteger hs
  rcases reads_literal h with ⟨string, -, hstring⟩ | ⟨found, hfound, hl, -⟩
  · rcases reads_string hstring with ⟨_, _, _, hcurrent, -⟩ | ⟨_, _, hcurrent, -⟩ <;>
      cases hraw.symm.trans hcurrent
  · cases hraw.symm.trans hfound
    cases hl
    rfl

theorem fields_of_reads_object {inner : Inner} [∀ e, Advances (inner e)]
    (hs : s.atObjectStart = true) {guessed : Bool} {o : Object}
    (h : Reads (object inner guessed) s o t) : o.fields ≠ [] := by
  obtain ⟨_, _, hfields, _⟩ := reads_object.1 h
  intro hnil
  rw [hnil] at hfields
  cases hfields with
  | done hdone =>
    have hpeek : s.peek? 1 = some (.symbol .rightBrace) := by
      rw [← State.peek?_advance]
      exact State.current?_of_sees (by simpa using hdone)
    simp [State.atObjectStart, hpeek] at hs

section Chains

variable {α : Type} {step : Parser (Option α)} {first items : List α}

private theorem reads_collect_or (h : Reads (collect step first) s items t) :
    (items = first ∧ Reads step s none t) ∨ first.length < items.length := by
  have grow {bound : Nat} {first : List α} {s : State}
      (h : Reads (repeatWithin (fun items => do return (← step).map (items ++ [·])) bound first) s
        items t) :
      first.length ≤ items.length := by
    induction bound generalizing first s with
    | zero => exact Nat.le_of_eq (congrArg _ (reads_pure.1 h).1.symm)
    | succ bound ih =>
      simp only [repeatWithin, reads_bind, reads_pure] at h
      obtain ⟨_, _, ⟨a, _, _, rfl, rfl⟩, hrest⟩ := h
      cases a with
      | none => exact Nat.le_of_eq (congrArg _ (reads_pure.1 hrest).1.symm)
      | some a =>
        have hle := ih hrest
        rw [List.length_append] at hle
        exact Nat.le_of_add_right_le hle
  unfold collect repeated at h
  rw [reads_get_bind] at h
  simp only [repeatWithin, reads_bind, reads_pure] at h
  obtain ⟨_, _, ⟨a, _, ha, rfl, rfl⟩, hrest⟩ := h
  cases a with
  | none =>
    obtain ⟨rfl, rfl⟩ := reads_pure.1 hrest
    exact .inl ⟨rfl, ha⟩
  | some a =>
    have hle := grow hrest
    rw [List.length_append] at hle
    exact .inr hle

private theorem length_of_reads_usePath {ns : List Name} (h : Reads usePath s ns t) :
    2 ≤ ns.length ∨ ns.length = 1 ∧ t = s.advance := by
  obtain ⟨n, s₁, hn, hrest⟩ := reads_bind.1 h
  obtain ⟨-, -, rfl⟩ := reads_name.1 hn
  rcases reads_collect_or hrest with ⟨rfl, hnone⟩ | hlt
  · simp only [reads_bind, reads_get, reads_ite, reads_pure, and_assoc, exists_and_left,
      exists_eq_left, exists_const, reduceCtorEq, false_and, and_false, exists_false,
      false_or] at hnone
    exact .inr ⟨rfl, hnone.2.2⟩
  · exact .inl hlt

theorem reads_importedNames_ne_nil {ns : List Name} (h : Reads importedNames s ns t) : ns ≠ [] := by
  simp only [importedNames, reads_bind, reads_get, reads_ite, reads_unexpected, reads_names,
    and_assoc, exists_and_left, exists_eq_left, and_false, false_or] at h
  obtain ⟨_, _, _, hbrace, _, h⟩ := h
  rcases reads_delimited.1 h with ⟨hcloser, -⟩ | ⟨-, _, _, _, _, _, _, _, hr, -⟩
  · exact absurd hcloser hbrace
  · cases hr
    exact List.cons_ne_nil _ _

theorem formed_of_reads_pathTarget (hs : s.peek? 1 = some (.symbol .scope)) {target : UseTarget}
    (h : Reads pathTarget s target t) : target.Formed := by
  simp only [pathTarget, reads_bind, reads_accept, reads_ite, reads_pure] at h
  obtain ⟨ns, s₁, hns, _, s₂, ⟨hscope, rfl, rfl⟩ | ⟨hscope, rfl, rfl⟩, h⟩ := h
  · have hne : ns ≠ [] := by
      rintro rfl
      rcases length_of_reads_usePath hns with hlength | ⟨hlength, -⟩
      · exact absurd hlength (by decide)
      · exact absurd hlength (by decide)
    obtain ⟨_, _, -, ⟨-, rfl, -⟩ | ⟨-, _, _, hnames, rfl, -⟩⟩ := (h.resolve_right (by simp)).2
    · exact hne
    · exact ⟨hne, reads_importedNames_ne_nil hnames⟩
  · obtain ⟨rfl, rfl⟩ := (h.resolve_left (by simp)).2
    refine (length_of_reads_usePath hns).resolve_right ?_
    rintro ⟨-, rfl⟩
    exact hscope (State.sees_of_peek?_eq (by rwa [State.peek?_advance]))

theorem length_of_reads_links (hs : s.sees (.symbol .arrow) = true) {first chain : List Name}
    (h : Reads (collect (do
      if ← accept (.symbol .arrow) then return some (← name .pathStep) else
        return none) first) s chain t) :
    first.length < chain.length := by
  refine (reads_collect_or h).resolve_left ?_
  rintro ⟨-, hnone⟩
  simp [reads_bind, reads_accept, reads_ite, reads_pure, reads_map, hs] at hnone

theorem State.sees_arrow (hs : s.atPathStart = true) :
    s.advance.advance.advance.sees (.symbol .arrow) = true := by
  simp only [State.atPathStart, Bool.and_eq_true, beq_iff_eq] at hs
  refine State.sees_of_peek?_eq ?_
  rw [State.peek?_advance, State.peek?_advance, State.peek?_advance]
  exact hs.2

end Chains

end ApiScript.Grammar
