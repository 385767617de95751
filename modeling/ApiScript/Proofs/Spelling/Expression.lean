import ApiScript.Proofs.Reading.Climb
import ApiScript.Proofs.Spelling.Run

set_option autoImplicit false
set_option relaxedAutoImplicit false

/-!
Expressions stand for the tokens they were read from, whatever stands in front of their operators,
and none ends in front of two bars.
-/

namespace ApiScript.Grammar

variable {inner : Inner} {s t u : State}

private theorem Wrote.literalOrRange (hi : Writes inner) {e : Expr}
    (h : Reads (literalOrRange inner) s e t) :
    Wrote s e.marks t := by
  simp only [Grammar.literalOrRange, reads_bind, reads_get, reads_ite, reads_pure, reads_upToHere,
    and_assoc, exists_and_left, exists_eq_left] at h
  obtain ⟨l, s₁, hl, ⟨_, hs, inclusive, s₂, hmark, h⟩ | ⟨_, rfl, rfl⟩⟩ := h
  · have hw := literal_wrote hi hl
    have hspan := hw.spans l.marks_isNode
    rcases h with ⟨hs₂, stop, s₃, hstop, rfl, rfl⟩ | ⟨hs₂, rfl, rfl⟩
    · have hmark := Wrote.rangeMark .any hs hmark fun _ _ _ => trivial
      have hstop := literal_wrote hi hstop
      rw [Expr.marks]
      exact .node (hw.append (.cons hmark hstop)) (hspan.here (hmark.reaches.trans hstop.reaches))
    · obtain ⟨_, rfl⟩ := reads_rangeMark.1 hmark
      have hmark := Wrote.rangeMark .noInteger hs hmark fun next rest hnext => by
        have hbehind : (State.ahead rest).atInteger = s₁.advance.atInteger :=
          State.atInteger_congr (State.after_advance hnext).symm
        exact hbehind.trans (Bool.not_eq_true _ ▸ hs₂)
      rw [Expr.marks]
      exact .node (hw.append hmark) (hspan.here hmark.reaches)
  · have hl := literal_wrote hi hl
    rw [Expr.marks]
    exact .node hl (hl.spans l.marks_isNode)

theorem State.current?_of_atRangeMark (h : s.atRangeMark = true) : ∃ l, s.current? = some l := by
  rcases Bool.or_eq_true_iff.1 h with h | h <;> exact ⟨_, State.current?_of_sees h⟩

private theorem Wrote.openRange (hi : Writes inner) {e : Expr} (hs : s.atRangeMark = true)
    (h : Reads (openRange inner) s e t) : Wrote s e.marks t := by
  simp only [Grammar.openRange, reads_bind, reads_ask, reads_get, reads_ite, reads_pure,
    reads_unexpected, and_assoc, exists_and_left, exists_eq_left, and_false, or_false] at h
  obtain ⟨inclusive, s₁, hmark, _, stop, s₂, hstop, rfl, rfl⟩ := h
  have hw := Wrote.rangeMark .any hs hmark fun _ _ _ => trivial
  have hstop := literal_wrote hi hstop
  obtain ⟨_, rfl⟩ := reads_rangeMark.1 hmark
  obtain ⟨l, hl⟩ := State.current?_of_atRangeMark hs
  rw [Expr.marks]
  exact .node (.cons hw hstop) (.merge (.token hl) (.refl _) (hstop.spans stop.marks_isNode))

private theorem Wrote.environment {e : Expr} (h : Reads environment s e t) : Wrote s e.marks t := by
  simp only [Grammar.environment, reads_bind, reads_pure] at h
  obtain ⟨start, s₁, hstart, _, s₂, hdot, n, _, hn, rfl, rfl⟩ := h
  have hn := Wrote.anyName hn
  have hdot := Wrote.expect hdot
  rw [Expr.marks]
  exact .node (((Wrote.expect hstart).append hdot).append hn)
    ((Spans.expect hstart).merge hdot.reaches (hn.spans (n.marks_isNode _)))

private theorem Wrote.parenthesized (hi : Writes inner) {e : Expr}
    (h : Reads (parenthesized inner) s e t) :
    Wrote s e.marks t := by
  simp only [Grammar.parenthesized, reads_bind, reads_pure] at h
  obtain ⟨opener, s₁, hopener, e, s₂, he, closer, _, hcloser, rfl, rfl⟩ := h
  have he := hi.expression he
  rw [Expr.marks]
  exact .node (((Wrote.expect hopener).append he).append (.close hcloser))
    ((Spans.expect hopener).merge he.reaches (.close hcloser))

variable [∀ e, Advances (inner e)]

private theorem Wrote.array (hi : Writes inner) {e : Expr} (h : Reads (array inner) s e t) :
    Wrote s e.marks t := by
  simp only [Grammar.array, reads_bind, reads_pure] at h
  obtain ⟨opener, s₁, hopener, ⟨elements, closer⟩, _, h, rfl, rfl⟩ := h
  obtain ⟨hw, v, hv, hcloser⟩ := Wrote.delimited _ rfl hi.expression hopener h
  rw [Expr.marks, Expr.marksEach_eq_map]
  exact .node hw ((Spans.expect hopener).merge hv hcloser)

private theorem Wrote.braced [Consumes (inner .expression)] (hi : Writes inner) {e : Expr}
    (h : Reads (braced inner) s e t) :
    Wrote s e.marks t := by
  simp only [Grammar.braced, reads_bind, reads_get, reads_ite, reads_pure, and_assoc,
    exists_and_left, exists_eq_left] at h
  rcases h with ⟨_, o, _, ho, rfl, rfl⟩ | ⟨_, b, _, hb, rfl, rfl⟩
  · have ho := Wrote.object hi ho
    rw [Expr.marks]
    exact .node ho (ho.spans o.marks_isNode)
  · have hb := Wrote.itemBlock hi hb
    rw [Expr.marks]
    exact .node hb (hb.spans b.marks_isNode)

omit [∀ e, Advances (inner e)] in
private theorem Wrote.alternative? (hi : Writes inner) {a : Option Alternative}
    (h : Reads (alternative? inner) s a t) :
    Wrote s (match a with
      | none => []
      | some (.block b) => Mark.keyword .else_ :: b.marks
      | some (.conditional c) => Mark.keyword .else_ :: c.marks) t := by
  simp only [Grammar.alternative?, reads_bind, reads_accept, reads_get, reads_ite, reads_pure,
    and_assoc, exists_and_left, exists_eq_left] at h
  obtain ⟨_, s₁, ⟨helse, rfl, rfl⟩ | ⟨_, rfl, rfl⟩, hrest⟩ := h
  · rcases (hrest.resolve_right (by simp)).2 with ⟨_, c, _, hc, rfl, rfl⟩ | ⟨_, b, _, hb, rfl, rfl⟩
    · exact (Wrote.plain helse).cons (hi.alternative hc)
    · exact (Wrote.plain helse).cons (hi.block hb)
  · obtain ⟨rfl, rfl⟩ := (hrest.resolve_left (by simp)).2
    exact .nil _

private theorem Wrote.conditional (hi : Writes inner) {c : Conditional}
    (h : Reads (conditional inner) s c t) :
    Wrote s c.marks t := by
  have hread := h
  simp only [Grammar.conditional, reads_bind, reads_pure, reads_upToHere, and_assoc,
    exists_and_left, exists_eq_left] at h
  obtain ⟨start, s₁, hstart, condition, s₂, hcondition, consequence, s₃, hconsequence, alternative,
    s₄, halternative, rfl, rfl⟩ := h
  have hw := (((Wrote.expect hstart).append (hi.expression hcondition)).append
    (hi.block hconsequence)).append
    (.alternative? hi halternative)
  have hspan := Spans.upToHere hread hstart
  rcases alternative with _ | ⟨b⟩ | ⟨c⟩ <;>
  · rw [Conditional.marks]
    exact .node hw hspan

omit [∀ e, Advances (inner e)] in
private theorem Wrote.arm (hi : Writes inner) {a : Arm} (h : Reads (arm inner) s a t) :
    Wrote s a.marks t := by
  simp only [Grammar.arm, reads_bind, reads_accept, reads_ite, reads_pure] at h
  obtain ⟨p, s₁, hp, _, s₂, hguard, h⟩ := h
  have hp := hi.pattern hp
  have hspan := hp.spans p.marks_isNode
  have finish {guard : Option Expr} {ms : List Mark} {s₃ s₄ s₅ : State} {arrow : Span} {body : Expr}
      (hmarks : ∀ span, Arm.marks ⟨p, guard, body, span⟩ =
        [.node span (p.marks ++ ms ++ [Mark.symbol .fatArrow] ++ body.marks)])
      (hguard : Wrote s₁ ms s₃) (harrow : Reads (Grammar.expect (.symbol .fatArrow)) s₃ arrow s₄)
      (hbody : Reads (inner .expression) s₄ body s₅) :
      Wrote s (Arm.marks ⟨p, guard, body, p.span.merge body.span⟩) s₅ := by
    have harrow := Wrote.expect harrow
    have hbody := hi.expression hbody
    have hspan := hspan.merge (hguard.reaches.trans harrow.reaches) (hbody.spans body.marks_isNode)
    rw [hmarks]
    exact .node (((hp.append hguard).append harrow).append hbody) hspan
  rcases hguard with ⟨hif, rfl, rfl⟩ | ⟨_, rfl, rfl⟩
  · obtain ⟨g, s₃, hg, _, _, ⟨rfl, rfl⟩, _, s₄, harrow, body, _, hbody, rfl, rfl⟩ :=
      (h.resolve_right (by simp)).2
    have hguard := (Wrote.plain hif).cons (hi.expression hg)
    exact finish (fun _ => by rw [Arm.marks]) hguard harrow hbody
  · obtain ⟨_, _, ⟨rfl, rfl⟩, _, s₄, harrow, body, _, hbody, rfl, rfl⟩ :=
      (h.resolve_left (by simp)).2
    exact finish (fun _ => by rw [Arm.marks]) (.nil _) harrow hbody

private theorem Wrote.choice (hi : Writes inner) {c : Choice} (h : Reads (choice inner) s c t) :
    Wrote s c.marks t := by
  simp only [Grammar.choice, reads_bind, reads_pure] at h
  obtain ⟨start, s₁, hstart, subject, s₂, hsubject, opener, s₃, hopener, ⟨arms, closer⟩, _, h,
    rfl, rfl⟩ := h
  have hsubject := hi.expression hsubject
  obtain ⟨hw, v, hv, hcloser⟩ := Wrote.delimited _ rfl (.arm hi) hopener h
  rw [Choice.marks, Arm.marksEach_eq_map]
  exact .node (((Wrote.expect hstart).append hsubject).append hw)
    ((Spans.expect hstart).merge
      (hsubject.reaches.trans ((Advances.reads hopener).trans hv)) hcloser)

private theorem Wrote.lambdaParameters {params : List Name}
    (h : Reads lambdaParameters s params t) :
    Wrote s (if params.isEmpty then [.bars] else
      Mark.listed .bar .bar false (Name.marksEach params)) t := by
  simp only [Grammar.lambdaParameters, reads_bind, reads_accept, reads_ite, reads_pure,
    reads_names] at h
  obtain ⟨_, s₁, ⟨hor, rfl, rfl⟩ | ⟨_, rfl, rfl⟩, hrest⟩ := h
  · obtain ⟨rfl, rfl⟩ := (hrest.resolve_right (by simp)).2
    obtain ⟨next, rest, ha, hnext⟩ := State.sees_iff.1 hor
    refine ⟨[next], .advance ha, fun _ _ _ => ?_⟩
    exact Mark.spelledAll_singleton.2 (.inl (by rw [List.map_cons, hnext, List.map_nil]))
  · obtain ⟨opener, s₂, hopener, closer, hparams⟩ := (hrest.resolve_left (by simp)).2
    have hw := (Wrote.delimited (·.marks .any) rfl .anyName hopener hparams).1
    cases params with
    | cons n ns => exact hw
    | nil =>
      obtain ⟨ts, hm, hspelled⟩ := hw
      refine ⟨ts, hm, fun hs lax hlog => Mark.spelledAll_singleton.2 (.inr ?_)⟩
      have hbars := hspelled hs lax hlog
      simp only [List.map_nil, Mark.listed, Mark.SpelledAll, Mark.Spelled] at hbars
      obtain ⟨_, _, rfl, ⟨_, rfl, hbar, _⟩, _, _, rfl, ⟨_, rfl, hbar', _⟩, rfl⟩ := hbars
      simp [hbar, hbar']

omit [∀ e, Advances (inner e)] in
private theorem Wrote.lambda (hi : Writes inner) {e : Expr} (h : Reads (lambda inner) s e t) :
    Wrote s e.marks t := by
  simp only [Grammar.lambda, reads_bind, reads_ask, reads_operand, reads_pure, and_assoc,
    exists_and_left, exists_eq_left, exists_const] at h
  obtain ⟨params, s₁, hparams, _, body, _, hbody, rfl, rfl⟩ := h
  have hw := Wrote.lambdaParameters hparams
  have hbody := hi.expression hbody
  obtain ⟨⟨l, hl⟩, hreach⟩ := Spans.advance_reaches hparams
  rw [Expr.marks]
  exact .node (hw.append hbody) ((Spans.token hl).merge hreach (hbody.spans body.marks_isNode))

omit [∀ e, Advances (inner e)] in
theorem reads_arguments {r : List Expr × Span} : Reads (arguments inner) s r t ↔
    ∃ opener u, Reads (expect (.symbol .leftParen)) s opener u ∧
      Reads (delimited .parenthesis false opener (inner .expression)) u r t := by
  simp only [arguments, reads_bind]

private theorem Wrote.arguments (hi : Writes inner) {r : List Expr × Span}
    (h : Reads (arguments inner) s r t) :
    Wrote s (Mark.listed .leftParen .rightParen false (Expr.marksEach r.1)) t ∧ ∃ v, Reaches s v ∧
    Spans v r.2 t := by
  obtain ⟨opener, u, hopener, h⟩ := reads_arguments.1 h
  obtain ⟨hw, v, hv, hcloser⟩ := Wrote.delimited _ rfl hi.expression hopener h
  rw [Expr.marksEach_eq_map]
  exact ⟨hw, v, (Advances.reads hopener).trans hv, hcloser⟩

omit [∀ e, Advances (inner e)] in
private theorem Follow.against_iff {next : Token} {rest : List Token} {l : Lexeme}
    (h : s.after = next :: rest) :
    Follow.Against next rest l ↔ s.advance.sees l = true ∧
    s.currentSpan.touches s.advance.currentSpan = true := by
  have hadvance := State.after_advance h
  have hspan : s.currentSpan = next.span := by simp only [State.currentSpan, h]
  rw [hspan, State.sees_iff, hadvance]
  constructor
  · rintro ⟨u, hu, hl, htouches⟩
    obtain ⟨us, rfl⟩ := List.head?_eq_some_iff.1 hu
    exact ⟨⟨u, us, rfl, hl⟩, by simpa only [State.currentSpan, hadvance] using htouches⟩
  · rintro ⟨⟨u, us, rfl, hl⟩, htouches⟩
    exact ⟨u, rfl, hl, by simpa only [State.currentSpan, hadvance] using htouches⟩

private theorem Wrote.emission (hi : Writes inner) {e : Expr} (h : Reads (emission inner) s e t) :
    Wrote s e.marks t := by
  simp only [Grammar.emission, reads_bind, reads_get, reads_ite, reads_advance, reads_pure,
    reads_unexpected, and_assoc, exists_and_left, exists_eq_left, exists_const, and_false,
    false_or] at h
  obtain ⟨start, s₁, hstart, h⟩ := h
  have hspan := Spans.expect hstart
  obtain ⟨hemit, rfl, rfl⟩ := reads_expect.1 hstart
  obtain ⟨next, rest, ha, _⟩ := State.sees_iff.1 hemit
  rcases h with ⟨hdot, htouches, format, s₂, hformat, h⟩ | ⟨hdot, hparen, rfl, rfl⟩
  · have hkeyword : Wrote s [.lexeme (.keyword .emit) .joined] s.advance :=
      .lexeme hemit fun next rest ha => by
      obtain ⟨u, hu, _, htouches⟩ := (Follow.against_iff ha).2 ⟨hdot, htouches⟩
      exact ⟨u, hu, htouches⟩
    have hhead := hkeyword.append (.plain hdot)
    obtain ⟨_, hname, rfl⟩ := reads_name.1 hformat
    have hnameSpan : Spans s (s.currentSpan.merge format.span) s.advance.advance.advance :=
      hspan.merge (.advance _) ((Wrote.anyName hformat).spans (format.marks_isNode _))
    rcases h with ⟨hparen, hjoined, ⟨args, closer⟩, _, hargs, rfl, rfl⟩ | ⟨hparen, rfl, rfl⟩
    · have hformat := Wrote.name .joined hformat fun next rest ha => by
        rw [hname] at hjoined
        obtain ⟨u, hu, _, htouches⟩ := (Follow.against_iff ha).2 ⟨hparen, hjoined⟩
        exact ⟨u, hu, htouches⟩
      obtain ⟨hargs, v, hv, hcloser⟩ := Wrote.arguments hi hargs
      rw [Expr.marks]
      exact .node ((hhead.append hformat).append hargs) (hnameSpan.merge hv hcloser)
    · have hformat := Wrote.name .unapplied hformat fun next rest ha => by
        rw [hname] at hparen
        exact (not_congr (Follow.against_iff ha)).2 hparen
      rw [Expr.marks]
      exact .node (hhead.append hformat) hnameSpan
  · rw [Expr.marks]
    refine .node (.lexeme hemit fun next rest ha => ?_) hspan
    exact ⟨(not_congr (Follow.against_iff ha)).2 hdot, (not_congr (Follow.against_iff ha)).2 hparen⟩

private theorem Wrote.primary [Consumes (inner .expression)] (hi : Writes inner) {e : Expr}
    (h : Reads (primary inner) s e t) : Wrote s e.marks t := by
  unfold Grammar.primary at h
  rw [reads_get_bind] at h
  split at h
  · simp only [reads_bind, reads_pure] at h
    obtain ⟨n, _, hn, rfl, rfl⟩ := h
    have hn := Wrote.anyName hn
    rw [Expr.marks]
    exact .node hn (hn.spans (n.marks_isNode _))
  · exact .environment h
  · exact .openRange hi (by simp [State.atRangeMark, State.sees, *]) h
  · exact .openRange hi (by simp [State.atRangeMark, State.sees, *]) h
  · exact .parenthesized hi h
  · exact .array hi h
  · exact .braced hi h
  · simp only [reads_bind, reads_pure] at h
    obtain ⟨c, _, hc, rfl, rfl⟩ := h
    have hc := Wrote.conditional hi hc
    rw [Expr.marks]
    exact .node hc (hc.spans c.marks_isNode)
  · simp only [reads_bind, reads_pure] at h
    obtain ⟨c, _, hc, rfl, rfl⟩ := h
    have hc := Wrote.choice hi hc
    rw [Expr.marks]
    exact .node hc (hc.spans c.marks_isNode)
  · exact .lambda hi h
  · exact .lambda hi h
  · simp only [reads_bind, reads_pure] at h
    obtain ⟨r, _, hr, rfl, rfl⟩ := h
    have hr := Wrote.run hi hr
    rw [Expr.marks]
    exact .node hr (hr.spans r.marks_isNode)
  · exact .emission hi h
  · simp only [reads_ite, reads_unexpected, and_false, or_false] at h
    exact .literalOrRange hi h.2

private theorem Wrote.suffix? (hi : Writes inner) {e e' : Expr} (hw : Wrote s e.marks t)
    (h : Reads (suffix? inner e) t (some e') u) : Wrote s e'.marks u := by
  have hspan := hw.spans e.marks_isNode
  unfold Grammar.suffix? at h
  rw [reads_get_bind] at h
  split at h
  · rename_i hs
    simp only [reads_bind, reads_advance, reads_pure, exists_const, exists_eq_left,
      Option.some.injEq] at h
    obtain ⟨n, _, hn, rfl, rfl⟩ := h
    have hn := Wrote.anyName hn
    rw [Expr.marks]
    exact .node ((hw.append (.plain (by simp [State.sees, hs]))).append hn)
      (hspan.merge (.advance _) (hn.spans (n.marks_isNode _)))
  · rename_i hs
    simp only [reads_bind, reads_advance, reads_pure, exists_const, exists_eq_left,
      Option.some.injEq] at h
    obtain ⟨index, s₁, hindex, closer, _, hcloser, rfl, rfl⟩ := h
    have hindex := hi.expression hindex
    rw [Expr.marks]
    exact .node (((hw.append (.plain (by simp [State.sees, hs]))).append hindex).append
      (.close hcloser))
      (hspan.merge ((Reaches.advance _).trans hindex.reaches) (.close hcloser))
  · simp only [reads_bind, reads_pure, Option.some.injEq] at h
    obtain ⟨⟨args, closer⟩, _, hargs, rfl, rfl⟩ := h
    obtain ⟨hargs, v, hv, hcloser⟩ := Wrote.arguments hi hargs
    rw [Expr.marks]
    exact .node (hw.append hargs) (hspan.merge hv hcloser)
  · simp only [reads_pure, reduceCtorEq, false_and] at h

omit [∀ e, Advances (inner e)] in
theorem suffix?_none {e : Expr} (h : Reads (suffix? inner e) s none t) : t = s := by
  unfold suffix? at h
  rw [reads_get_bind] at h
  split at h
  all_goals simp only [reads_bind, reads_pure, reduceCtorEq, false_and, and_false, exists_false,
    true_and] at h
  exact h

theorem suffix?_productive : Productive (suffix? inner) := by
  intro e e' s t h
  unfold suffix? at h
  rw [reads_get_bind] at h
  split at h
  · obtain ⟨_, u, hu, h⟩ := reads_bind.1 h
    rw [reads_advance.1 hu] at h
    exact Nat.lt_of_le_of_lt (Advances.reads h).length_le (State.advance_shorter ‹_›)
  · obtain ⟨_, u, hu, h⟩ := reads_bind.1 h
    rw [reads_advance.1 hu] at h
    exact Nat.lt_of_le_of_lt (Advances.reads h).length_le (State.advance_shorter ‹_›)
  · obtain ⟨r, u, hr, h⟩ := reads_bind.1 h
    obtain ⟨opener, v, hopener, hr⟩ := reads_arguments.1 hr
    exact Nat.lt_of_le_of_lt ((Advances.reads hr).trans (Advances.reads h)).length_le
      (Consumes.shorter hopener)
  · simp only [reads_pure, reduceCtorEq, false_and] at h

private theorem Wrote.postfixed [Consumes (inner .expression)] (hi : Writes inner) {e : Expr}
    (h : Reads (postfixed inner) s e t) : Wrote s e.marks t := by
  obtain ⟨e₀, s₁, he₀, hrest⟩ := reads_bind.1 h
  have hw := Wrote.primary hi he₀
  clear he₀ h
  split at hrest
  · obtain ⟨rfl, rfl⟩ := reads_pure.1 hrest
    exact hw
  · rename_i hemit
    clear hemit
    rw [reads_repeated suffix?_productive] at hrest
    induction hrest with
    | done h =>
      rw [suffix?_none h]
      exact hw
    | more h _ ih => exact ih (.suffix? hi hw h)

private theorem Wrote.unary [Consumes (inner .expression)] (hi : Writes inner) {e : Expr}
    (h : Reads (unary inner) s e t) :
    Wrote s e.marks t := by
  unfold Grammar.unary at h
  rw [reads_get_bind] at h
  split at h
  · rename_i op hop
    simp only [reads_bind, reads_advance, reads_operand, reads_pure, and_assoc, exists_and_left,
      exists_eq_left, exists_const] at h
    obtain ⟨_, e, _, he, rfl, rfl⟩ := h
    have he := hi.operand he
    have hs := unaryOp?_current? hop
    rw [Expr.marks]
    refine .node (.cons (.lexeme (by simp [State.sees, hs]) fun next rest ha => ?_) he)
      ((Spans.token hs).merge (.refl _) (he.spans e.marks_isNode))
    cases op with
    | not => trivial
    | neg =>
      have hcongr : (State.ahead (next :: rest)).atNegativeNumber = s.atNegativeNumber :=
        State.atNegativeNumber_congr ha.symm
      refine hcongr.trans ?_
      simp only [unaryOp?, hs, UnaryOp.lexeme] at hop
      split at hop
      · cases hop
      · exact Bool.not_eq_true _ ▸ ‹_›
  · exact .postfixed hi h

section Extend

variable {Op : Type} {operator? : Lexeme → Option Op} {right : Op → Parser Expr}
  {combine : Span → Op → Expr → Expr → Expr}

omit [∀ e, Advances (inner e)] in
private theorem Wrote.extended (hright : ∀ op {s e t}, Reads (right op) s e t → Wrote s e.marks t)
    (hcombine : ∀ {l op span left e}, operator? l = some op →
      (combine span op left e).marks = [.node span (left.marks ++ [.plain l] ++ e.marks)])
    {left e : Expr} (hw : Wrote s left.marks t)
      (h : Rounds (extend? operator? right combine) left t e u) :
    Wrote s e.marks u := by
  induction h with
  | done h =>
    rw [(extend?_none h).1]
    exact hw
  | @more left _ _ _ _ _ h _ ih =>
    obtain ⟨l, op, e', hl, hop, _, he', rfl⟩ := extend?_some h
    have he' := hright op he'
    refine ih ?_
    rw [hcombine hop]
    exact .node ((hw.append (.plain (by simp [State.sees, hl]))).append he')
      ((hw.spans left.marks_isNode).merge (.advance _) (he'.spans e'.marks_isNode))

end Extend

private theorem Wrote.climb [Consumes (inner .expression)] (hi : Writes inner) (minimum : Nat)
    {e : Expr} (h : Reads (climb inner minimum) s e t) : Wrote s e.marks t := by
  induction minimum using climb.induct generalizing s e t with
  | case1 minimum ih =>
    unfold Grammar.climb at h
    obtain ⟨left, s₁, hleft, hrest⟩ := reads_bind.1 h
    rw [reads_repeated extend?_productive] at hrest
    refine .extended (fun op {_ _ _} => ih op) (fun hop => ?_) (.unary hi hleft) hrest
    rw [Expr.marks, operatorFrom_lexeme hop]

private theorem Wrote.pipe [Consumes (inner .expression)] (hi : Writes inner) {e : Expr}
    (h : Reads (pipe inner) s e t) :
    Wrote s e.marks t := by
  obtain ⟨left, s₁, hleft, hrest⟩ := reads_bind.1 h
  rw [reads_repeated extend?_productive] at hrest
  refine .extended (fun _ {_ _ _} => .climb hi _) (fun hop => ?_) (.climb hi _ hleft) hrest
  rw [Expr.marks, pipeOf_eq_some hop]

private theorem settled_of_climb {e : Expr} (h : Reads (climb inner 0) s e t) : t.Settled := by
  refine Bool.eq_false_iff.2 fun hor => ?_
  have hnone := climb_settled h _ (State.current?_of_sees hor)
  simp [operatorFrom, BinaryOp.ofLexeme?, BinaryOp.all, BinaryOp.lexeme] at hnone

private theorem pipe_settled {e : Expr} (h : Reads (pipe inner) s e t) : t.Settled := by
  obtain ⟨left, s₁, hleft, hrest⟩ := reads_bind.1 h
  rw [reads_repeated extend?_productive] at hrest
  have hs := settled_of_climb hleft
  clear hleft h
  induction hrest with
  | done h =>
    rw [(extend?_none h).1]
    exact hs
  | more h _ ih =>
    obtain ⟨_, _, _, _, _, _, hright, _⟩ := extend?_some h
    exact ih (settled_of_climb hright)

omit [∀ e, Advances (inner e)] in
theorem writes_enter (limit room : Nat) : Writes (enter limit room) := by
  induction room with
  | zero => constructor <;> · intro s t v h; cases h
  | succ room ih =>
    exact
      { expression := .pipe ih
        operand := .unary ih
        alternative := .conditional ih
        block := .itemBlock ih
        pattern := .pattern ih
        ends := pipe_settled }

end ApiScript.Grammar
