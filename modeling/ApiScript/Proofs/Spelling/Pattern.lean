import ApiScript.Proofs.Spelling.Literal

set_option autoImplicit false
set_option relaxedAutoImplicit false

/-!
Patterns stand for the tokens they were read from.
-/

namespace ApiScript.Grammar

variable {inner : Inner} {s t u : State}

theorem State.atNegativeNumber_congr (h : s.after = t.after) :
    s.atNegativeNumber = t.atNegativeNumber := by
  simp only [State.atNegativeNumber, h]

theorem State.atInteger_congr (h : s.after = t.after) : s.atInteger = t.atInteger := by
  simp only [State.atInteger, State.current?, State.peek?, State.atNegativeNumber, h]

private theorem State.atLiteral_congr (h : s.after = t.after) : s.atLiteral = t.atLiteral := by
  simp only [State.atLiteral, State.current?, State.peek?, State.atNegativeNumber, h]

theorem State.after_advance {next : Token} {rest : List Token} (h : s.after = next :: rest) :
    s.advance.after = rest := by
  simp only [State.advance, h]

theorem reads_rangeMark {inclusive : Bool} :
    Reads rangeMark s inclusive t ↔ inclusive = s.sees (.symbol .rangeInclusive) ∧
    t = s.advance := by
  simp only [rangeMark, reads_bind, reads_get, reads_advance, reads_pure, and_assoc,
    exists_and_left, exists_eq_left, exists_const]

theorem Wrote.rangeMark {inclusive : Bool} (follow : Follow) (hs : s.atRangeMark = true)
    (h : Reads Grammar.rangeMark s inclusive t)
    (hf : ∀ next rest, s.after = next :: rest → follow.Holds next rest) :
    Wrote s [Mark.rangeMark inclusive follow] t := by
  obtain ⟨rfl, rfl⟩ := reads_rangeMark.1 h
  cases hsees : s.sees (.symbol .rangeInclusive) with
  | true => exact .lexeme hsees hf
  | false => exact .lexeme (by simpa [State.atRangeMark, hsees] using hs) hf

private theorem Wrote.fieldPattern (hi : Writes inner) {f : FieldPattern}
    (h : Reads (fieldPattern inner) s f t) :
    Wrote s f.marks t := by
  simp only [Grammar.fieldPattern, reads_bind, reads_accept, reads_ite, reads_pure] at h
  obtain ⟨key, s₁, hkey, _, s₂, ⟨hs, rfl, rfl⟩ | ⟨_, rfl, rfl⟩, h⟩ := h
  · obtain ⟨p, _, hp, rfl, rfl⟩ := (h.resolve_right (by simp)).2
    have hkey := Wrote.anyName hkey
    have hp := hi.pattern hp
    rw [FieldPattern.marks]
    exact .node (hkey.append (.cons (.plain hs) hp))
      ((hkey.spans (key.marks_isNode _)).merge (.advance _) (hp.spans p.marks_isNode))
  · obtain ⟨rfl, rfl⟩ := (h.resolve_left (by simp)).2
    have hkey := Wrote.anyName hkey
    rw [FieldPattern.marks, List.append_nil]
    exact .node hkey (hkey.spans (key.marks_isNode _))

theorem reads_bracketed {α : Type} {delimiter : Delimiter} {opener : Span} {item : Parser α}
    {r : List α × Span} :
    Reads (bracketed delimiter opener item) s r t ↔
    Reads (delimited delimiter true opener item) s.advance r t := by
  simp only [bracketed, reads_bind, reads_advance, reads_outcome, exists_const, exists_eq_left]
  constructor
  · rintro ⟨_, v, ⟨r', rfl, h⟩ | ⟨d, rfl, h⟩, h'⟩
    · obtain ⟨rfl, rfl⟩ := reads_pure.1 h'
      exact h
    · exact (reads_throw.1 h').elim
  · exact fun h => ⟨.ok r, t, .inl ⟨r, rfl, h⟩, reads_pure.2 ⟨rfl, rfl⟩⟩

private theorem Wrote.literalPattern (hi : Writes inner) {p : Pattern}
    (h : Reads (literalPattern inner) s p t) :
    Wrote s p.marks t := by
  simp only [Grammar.literalPattern, reads_bind, reads_get, reads_ite, reads_pure, and_assoc,
    exists_and_left, exists_eq_left] at h
  obtain ⟨l, s₁, hl, ⟨hs, inclusive, s₂, hmark, h⟩ | ⟨_, rfl, rfl⟩⟩ := h
  · have hw := literal_wrote hi hl
    rcases h with ⟨hs₂, stop, s₃, hstop, rfl, rfl⟩ | ⟨hs₂, rfl, rfl⟩
    · have hmark := Wrote.rangeMark .any hs hmark fun _ _ _ => trivial
      have hstop := literal_wrote hi hstop
      rw [Pattern.marks]
      exact .node (hw.append (.cons hmark hstop)) (.ofReads hl (hmark.reaches.trans hstop.reaches))
    · obtain ⟨_, rfl⟩ := reads_rangeMark.1 hmark
      have hmark := Wrote.rangeMark .noLiteral hs hmark fun next rest hnext => by
        have hbehind : (State.ahead rest).atLiteral = s₁.advance.atLiteral :=
          State.atLiteral_congr (State.after_advance hnext).symm
        exact hbehind.trans (Bool.not_eq_true _ ▸ hs₂)
      rw [Pattern.marks]
      exact .node (hw.append hmark) (.ofReads hl hmark.reaches)
  · have hl := literal_wrote hi hl
    rw [Pattern.marks]
    exact .node hl (hl.spans l.marks_isNode)

private theorem Wrote.openRangePattern (hi : Writes inner) {p : Pattern} (hs : s.atRangeMark = true)
    (h : Reads (openRangePattern inner) s p t) : Wrote s p.marks t := by
  simp only [Grammar.openRangePattern, reads_bind, reads_get, reads_ite, reads_pure, reads_throw,
    and_assoc, exists_and_left, exists_eq_left, and_false, or_false] at h
  obtain ⟨inclusive, s₁, hmark, _, stop, s₂, hstop, rfl, rfl⟩ := h
  have hw := Wrote.rangeMark .any hs hmark fun _ _ _ => trivial
  have hstop := literal_wrote hi hstop
  obtain ⟨_, rfl⟩ := reads_rangeMark.1 hmark
  rw [Pattern.marks]
  refine .node (.cons hw hstop) (.merge ?_ (.refl _) (hstop.spans stop.marks_isNode))
  rcases Bool.or_eq_true_iff.1 hs with hs | hs <;> exact .token (State.current?_of_sees hs)

variable [∀ e, Advances (inner e)]

theorem Wrote.pattern (hi : Writes inner) {p : Pattern} (h : Reads (pattern inner) s p t) :
    Wrote s p.marks t := by
  unfold Grammar.pattern at h
  rw [reads_get_bind] at h
  dsimp only at h
  split at h
  · rename_i text hs
    simp only [reads_bind, reads_advance, reads_pure, exists_const, exists_eq_left] at h
    obtain ⟨rfl, rfl⟩ := h
    have hspan := Spans.token hs
    have hw : Wrote s [.plain (.identifier text)] s.advance := .plain (by simp [State.sees, hs])
    split
    · rename_i htext
      rw [htext] at hw
      rw [Pattern.marks]
      exact .node hw hspan
    · rw [Pattern.marks]
      exact .node (.node hw hspan) hspan
  · exact .openRangePattern hi (by simp [State.atRangeMark, State.sees, *]) h
  · exact .openRangePattern hi (by simp [State.atRangeMark, State.sees, *]) h
  · rename_i hs
    simp only [reads_bind, reads_bracketed, reads_pure] at h
    obtain ⟨r, u, hr, rfl, rfl⟩ := h
    have hopener : Reads (Grammar.expect (.symbol .leftBracket)) s s.currentSpan s.advance :=
      reads_expect.2 ⟨by simp [State.sees, hs], rfl, rfl⟩
    obtain ⟨hw, v, hv, hcloser⟩ := Wrote.delimited _ rfl hi.pattern hopener hr
    rw [Pattern.marks, Pattern.marksEach_eq_map]
    exact .node hw ((Spans.token hs).merge hv hcloser)
  · rename_i hs
    simp only [reads_bind, reads_bracketed, reads_pure] at h
    obtain ⟨r, u, hr, rfl, rfl⟩ := h
    have hopener : Reads (Grammar.expect (.symbol .leftBrace)) s s.currentSpan s.advance :=
      reads_expect.2 ⟨by simp [State.sees, hs], rfl, rfl⟩
    obtain ⟨hw, v, hv, hcloser⟩ := Wrote.delimited _ rfl (.fieldPattern hi) hopener hr
    rw [Pattern.marks, FieldPattern.marksEach_eq_map]
    exact .node hw ((Spans.token hs).merge hv hcloser)
  · simp only [reads_ite, reads_throw, and_false, or_false] at h
    exact .literalPattern hi h.2

end ApiScript.Grammar
