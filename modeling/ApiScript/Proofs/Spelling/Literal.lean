import ApiScript.Proofs.Lexing.Tokens

set_option autoImplicit false
set_option relaxedAutoImplicit false

/-!
Literals stand for the tokens they were read from, and embedded code for all tokens of its own text.
-/

namespace ApiScript.Grammar

/-- What the readers of nodes read stands for its tokens, and no expression ends in front of two
bars. -/
structure Writes (inner : Inner) : Prop where
  expression {s t : State} {e : Expr} : Reads (inner .expression) s e t → Wrote s e.marks t
  operand {s t : State} {e : Expr} : Reads (inner .operand) s e t → Wrote s e.marks t
  alternative {s t : State} {c : Conditional} : Reads (inner .alternative) s c t → Wrote s c.marks t
  block {s t : State} {b : Block} : Reads (inner .block) s b t → Wrote s b.marks t
  pattern {s t : State} {p : Pattern} : Reads (inner .pattern) s p t → Wrote s p.marks t
  ends {s t : State} {e : Expr} : Reads (inner .expression) s e t → t.sees (.symbol .or) = false

variable {inner : Inner} {s t : State}

theorem reads_wholeExpression {e : Expr} :
    Reads (wholeExpression inner) s e t ↔ s.broken = false ∧ Reads (inner .expression) s e t ∧
    t.atEnd = true := by
  unfold wholeExpression
  rw [reads_get_bind]
  simp only [reads_ite, reads_unexpected, reads_bind, reads_get, reads_pure, and_false, false_or,
    or_false, and_assoc, exists_and_left, exists_eq_left, Bool.not_eq_true]
  refine and_congr_right fun _ => ⟨?_, ?_⟩
  · rintro ⟨e', u, he, hend, rfl, rfl⟩
    exact ⟨he, hend⟩
  · rintro ⟨he, hend⟩
    exact ⟨e, t, he, hend, rfl, rfl⟩

theorem reads_embedded {source : String} {offset : Nat} {e : Expr} :
    Reads (embedded inner source offset) s e t ↔ ∃ finish,
      ¬((State.ofString source offset).atEnd ∧ ¬(State.ofString source offset).broken) ∧
      Reads (wholeExpression inner) (State.ofString source offset) e finish ∧
      t = s.report finish.log := by
  unfold embedded
  dsimp only
  rw [reads_ite]
  simp only [reads_bind, reads_throw, and_false, exists_false, false_or]
  constructor
  · rintro ⟨hstart, h⟩
    split at h
    · rename_i e' finish he
      simp only [reads_bind, reads_modify, reads_pure, exists_const, exists_eq_left] at h
      obtain ⟨rfl, rfl⟩ := h
      exact ⟨finish, hstart, he, rfl⟩
    · simp only [reads_bind, reads_throw, and_false, exists_false] at h
  · rintro ⟨finish, hstart, he, rfl⟩
    refine ⟨hstart, ?_⟩
    have hrun : (wholeExpression inner).run (State.ofString source offset) = .ok e finish := he
    rw [hrun]
    simp only [reads_bind, reads_modify, reads_pure, exists_const, exists_eq_left, true_and]

private theorem embedded_spelled (hi : Writes inner) {source : String} {offset : Nat} {e : Expr}
    (h : Reads (embedded inner source offset) s e t) {lax : Bool}
    (hlog : lax = true ∨ t.log = s.log) :
    (State.ofString source offset).broken = false ∧
    (lax = true ∨ (State.ofString source offset).log = []) ∧
      Mark.SpelledAll lax e.marks (State.ofString source offset).after [] := by
  obtain ⟨finish, _, hwhole, rfl⟩ := reads_embedded.1 h
  obtain ⟨hbroken, he, hend⟩ := reads_wholeExpression.1 hwhole
  obtain ⟨ts, hm, hms⟩ := hi.expression he
  have hafter : finish.after = [] := by simpa [State.atEnd] using hend
  have hlogs : (lax = true ∨ (State.ofString source offset).log = []) ∧
      (lax = true ∨ finish.log = (State.ofString source offset).log) := by
    rcases hlog with hlax | hlog
    · exact ⟨.inl hlax, .inl hlax⟩
    · have hfinish : finish.log = [] := by simpa [State.report] using hlog
      have hstart : (State.ofString source offset).log = [] := by
        have := hm.log
        rwa [hfinish, List.prefix_nil] at this
      exact ⟨.inr hstart, .inr (hfinish.trans hstart.symm)⟩
  have hspelled := hms (State.sound_ofString source offset) lax hlogs.2
  rw [hm.after, hafter, List.append_nil]
  rw [hafter] at hspelled
  exact ⟨hbroken, hlogs.1, hspelled⟩

private theorem stringParts_spelled (hi : Writes inner) {segments : List Quoted.Segment}
    {parts : List StringPart} (h : Reads (stringParts inner segments) s parts t) {lax : Bool}
    (hlog : lax = true ∨ t.log = s.log) :
    Part.SpelledAll lax (StringPart.marksEach parts) segments := by
  induction segments generalizing s parts with
  | nil =>
    obtain ⟨rfl, _⟩ := reads_pure.1 h
    rfl
  | cons segment segments ih =>
    cases segment with
    | text text =>
      simp only [stringParts, reads_bind, reads_pure] at h
      obtain ⟨rest, u, hu, rfl, rfl⟩ := h
      exact ⟨segments, rfl, ih hu hlog⟩
    | code source offset =>
      simp only [stringParts, reads_bind, reads_pure] at h
      obtain ⟨e, u, he, rest, v, hv, rfl, rfl⟩ := h
      have hlogs : (lax = true ∨ u.log = s.log) ∧ (lax = true ∨ t.log = u.log) := by
        rcases hlog with hlax | hlog
        · exact ⟨.inl hlax, .inl hlax⟩
        · have hprefix := (stringParts_moves hv).log
          have hu : u.log = s.log :=
            ((embedded_moves he).log.eq_of_length_le (hlog ▸ hprefix.length_le)).symm
          exact ⟨.inr hu, .inr (hlog.trans hu.symm)⟩
      obtain ⟨hbroken, hstart, hspelled⟩ := embedded_spelled hi he hlogs.1
      exact ⟨source, offset, segments, rfl, hbroken, hstart, hspelled, ih hv hlogs.2⟩

theorem string_wrote (hi : Writes inner) {expected : Expectation} {l : StringLiteral}
    (h : Reads (string inner expected) s l t) : Wrote s l.marks t := by
  rcases reads_string h with ⟨raw, segments, u, hs, hsplit, hu, hl, rfl⟩ | ⟨raw, text, hs,
    hdecode, rfl, rfl⟩
  · have hm := stringParts_moves hu
    have hsees : s.sees (.string .interpolated raw) = true := by simp [State.sees, hs]
    obtain ⟨next, rest, ha, hnext⟩ := State.sees_iff.1 hsees
    have hafter : u.after = next :: rest := hm.after_nil.trans ha
    have hspan : s.currentSpan = next.span := by simp only [State.currentSpan, ha]
    have hmoves : Moves s [next] u.advance := hm.trans (.advance hafter)
    rw [hl]
    refine .node ⟨[next], hmoves, fun hsound lax hlog => ?_⟩ ⟨⟨[next], hmoves⟩, fun _ => ⟨?_, ?_⟩⟩
    · rw [Mark.spelledAll_singleton]
      have hlog' : u.advance.log = u.log := by simp only [State.advance, hafter]
      exact ⟨next, raw, segments, rfl, hnext, hspan ▸ hsplit,
        stringParts_spelled hi hu (hlog' ▸ hlog)⟩
    · have := hmoves.length
      rw [List.length_singleton] at this
      omega
    · rw [State.upTo, State.front_of_after ha, State.back_advance hafter, hspan]
  · have hsees : s.sees (.string .simple raw) = true := by simp [State.sees, hs]
    obtain ⟨next, rest, ha, hnext⟩ := State.sees_iff.1 hsees
    have hspan : s.currentSpan = next.span := by simp only [State.currentSpan, ha]
    refine .node ⟨[next], .advance ha, fun _ lax _ => ?_⟩ (.token hs)
    rw [Mark.spelledAll_singleton]
    refine ⟨next, raw, text, rfl, hnext, hspan ▸ hdecode, ?_⟩
    unfold Part.ofText
    split <;> rfl

theorem State.atNegativeNumber_iff :
    s.atNegativeNumber = true ↔ ∃ minus number rest, s.after = minus :: number :: rest ∧
      minus.lexeme = .symbol .minus ∧ number.lexeme.isSignable = true ∧
      minus.span.touches number.span = true := by
  unfold State.atNegativeNumber
  split
  · rename_i minus number rest hs
    simp [hs, and_assoc]
  · rename_i hs
    simp only [Bool.false_eq_true, false_iff]
    rintro ⟨minus, number, rest, h, _⟩
    exact hs _ _ _ h

theorem State.atNegativeNumber_of_current? {l : Lexeme} (hs : s.current? = some l)
    (hl : l ≠ .symbol .minus) :
    s.atNegativeNumber = false := by
  rw [Bool.eq_false_iff]
  intro hsign
  obtain ⟨minus, _, _, hafter, hminus, -⟩ := State.atNegativeNumber_iff.1 hsign
  have hcurrent : s.current? = some (.symbol .minus) := by
    simp [State.current?, State.peek?, hafter, hminus]
  exact hl (Option.some.inj (hs.symm.trans hcurrent))

theorem Wrote.congr {ms ns : List Mark} (h : Wrote s ms t) (k : s.Sound → ms = ns) :
    Wrote s ns t := by
  obtain ⟨ts, hm, hms⟩ := h
  exact ⟨ts, hm, fun hs => k hs ▸ hms hs⟩

private theorem number_of_genuine {kind : NumberClass} {raw : String}
    (h : (Lexeme.number kind raw).Genuine) :
    Mark.number kind raw = [.plain (.number kind raw)] := by
  obtain ⟨c, cs, hraw, hc⟩ := h
  unfold Mark.number
  split
  · rename_i digits hminus
    rw [hraw] at hminus
    cases (List.cons.inj hminus).1
    exact absurd hc (by decide)
  · rfl

private theorem number_of_minus {kind : NumberClass} {raw : String} :
    Mark.number kind ("-" ++ raw) =
      [.lexeme (.symbol .minus) .joined, .plain (.number kind raw)] := by
  have h : ("-" ++ raw).toList = '-' :: raw.toList := by simp
  simp only [Mark.number, h, String.ofList_toList]

private theorem Wrote.number {kind : NumberClass} {raw : String}
    (h : s.current? = some (.number kind raw)) :
    Wrote s (Mark.number kind raw) s.advance := by
  have hsees : s.sees (.number kind raw) = true := by simp [State.sees, h]
  refine (Wrote.plain hsees).congr fun hs => (number_of_genuine ?_).symm
  obtain ⟨next, rest, ha, hnext⟩ := State.sees_iff.1 hsees
  exact hnext ▸ hs.genuine next (State.Sound.mem_after (by simp [ha]))

private theorem Wrote.negative {kind : NumberClass} {raw : String} (hs : s.atNegativeNumber = true)
    (h : s.advance.current? = some (.number kind raw)) :
    Wrote s (Mark.number kind ("-" ++ raw)) s.advance.advance := by
  obtain ⟨minus, number, rest, ha, hminus, _, htouches⟩ := State.atNegativeNumber_iff.1 hs
  rw [number_of_minus]
  refine .cons (.lexeme (State.sees_iff.2 ⟨minus, _, ha, hminus⟩) fun next behind hnext => ?_)
    (.plain (by simp [State.sees, h]))
  obtain ⟨rfl, rfl⟩ := List.cons.inj (ha.symm.trans hnext)
  exact ⟨number, rfl, htouches⟩

theorem Span.merge_self (a : Span) : a.merge a = a := by simp [Span.merge]

private theorem Spans.negative (hs : s.atNegativeNumber = true) {l : Lexeme}
    (h : s.advance.current? = some l) :
    Spans s (s.currentSpan.merge s.advance.currentSpan) s.advance.advance := by
  obtain ⟨minus, number, rest, ha, hminus, _⟩ := State.atNegativeNumber_iff.1 hs
  have hsees : s.sees (.symbol .minus) = true := State.sees_iff.2 ⟨minus, _, ha, hminus⟩
  exact .merge (.token (State.current?_of_sees hsees)) (.refl _) (.token h)

theorem State.current?_behind_minus (hs : s.atNegativeNumber = true) {l : Lexeme}
    (h : s.advance.current? = some l) :
    l.isSignable = true := by
  obtain ⟨minus, number, rest, ha, _, hsignable, _⟩ := State.atNegativeNumber_iff.1 hs
  have : s.advance.current? = some number.lexeme := by
    simp [State.current?, State.peek?, State.advance, ha]
  rw [this] at h
  exact Option.some.inj h ▸ hsignable

theorem literal_wrote (hi : Writes inner) {l : Literal} (h : Reads (literal inner) s l t) :
    Wrote s l.marks t := by
  cases hsign : s.atNegativeNumber with
  | true =>
    have hbehind : s.behindSign = s.advance := by simp [State.behindSign, hsign]
    have hminus : s.sign = "-" := by simp [State.sign, hsign]
    rcases reads_literal h with ⟨string, _, hstring⟩ | ⟨found, hfound, hl, rfl⟩
    · rw [hbehind] at hstring
      rcases reads_string hstring with ⟨_, _, _, hs, _⟩ | ⟨_, _, hs, _⟩ <;>
      · have := State.current?_behind_minus hsign hs
        simp [Lexeme.isSignable] at this
    · rw [hbehind] at hfound hl ⊢
      rw [hminus] at hl
      have hsignable := State.current?_behind_minus hsign hfound
      cases hl with
      | integer | float => exact .node (.negative hsign hfound) (.negative hsign hfound)
      | _ => simp [Lexeme.isSignable] at hsignable
  | false =>
    have hbehind : s.behindSign = s := by simp [State.behindSign, hsign]
    have hempty : s.sign = "" := by simp [State.sign, hsign]
    rcases reads_literal h with ⟨string, rfl, hstring⟩ | ⟨found, hfound, hl, rfl⟩
    · rw [hbehind] at hstring
      have hw := string_wrote hi hstring
      exact .node hw (hw.spans string.marks_isNode)
    · rw [hbehind, Span.merge_self] at hl
      rw [hbehind] at hfound ⊢
      rw [hempty] at hl
      have hspan := Spans.token hfound
      have hsees : s.sees found = true := by simp [State.sees, hfound]
      cases hl with
      | integer | float =>
        rw [String.empty_append]
        exact .node (.number hfound) hspan
      | duration | size => exact .node (.number hfound) hspan
      | bytes hvalue =>
        obtain ⟨next, rest, ha, hnext⟩ := State.sees_iff.1 hsees
        have hcurrent : s.currentSpan = next.span := by simp only [State.currentSpan, ha]
        refine .node ⟨[next], .advance ha, fun _ lax _ => ?_⟩ hspan
        rw [Mark.spelledAll_singleton]
        exact ⟨next, _, rfl, hnext, hcurrent ▸ hvalue⟩
      | true_ | false_ | null => exact .node (.plain hsees) hspan

end ApiScript.Grammar
