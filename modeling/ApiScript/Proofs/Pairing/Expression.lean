import ApiScript.Proofs.Pairing.Run

set_option autoImplicit false
set_option relaxedAutoImplicit false

/-!
Expressions are read the same way in both runs, and so are all nodes at every depth.
-/

namespace ApiScript.Grammar

open Placed

section Seams

variable {R : Regime} {b : Bool} {s t : State}

private theorem State.currentSpan_advance {x y : Token} {ts : List Token}
    (h : s.after = x :: y :: ts) :
    s.advance.currentSpan = y.span := by
  exact Fence.currentSpan_of_after (State.after_advance h)

private theorem Twins.pair (h : Twins R b s t) {l l' : Lexeme} (hs : s.current? = some l)
    (hnext : s.advance.current? = some l') :
    ∃ x x' xs y y' ys, s.after = x :: x' :: xs ∧ t.after = y :: y' :: ys ∧ x.lexeme = l ∧
    x'.lexeme = l' ∧ Seam (x :: x' :: xs) (y :: y' :: ys) := by
  obtain ⟨x, xs, hx, hl⟩ := State.after_of_current? hs
  obtain ⟨x', xs', hx', hl'⟩ := State.after_of_current? hnext
  rw [State.after_advance hx] at hx'
  subst hx'
  obtain ⟨y, ys, hy, _, _, hrest⟩ := h.after_cons hx
  obtain ⟨y', ys, rfl, _, _⟩ := same_cons_left.1 hrest
  have hseams := h.seams
  rw [hx, hy] at hseams
  exact ⟨x, x', xs', y, y', ys, hx, hy, hl, hl', hseams.1⟩

private theorem Twins.touches_emission (h : Twins R b s t) (hs : s.current? = some (.keyword .emit))
    {l : Lexeme} (hl : asksTouch (.keyword .emit) l = true) (hnext : s.advance.current? = some l) :
    s.currentSpan.touches s.advance.currentSpan = t.currentSpan.touches t.advance.currentSpan := by
  obtain ⟨x, x', xs, y, y', ys, hx, hy, hl₁, hl₂, hseam⟩ := h.pair hs hnext
  rw [Fence.currentSpan_of_after hx, Fence.currentSpan_of_after hy, State.currentSpan_advance hx,
    State.currentSpan_advance hy]
  exact hseam.1 (by rw [hl₁, hl₂, hl])

private theorem Twins.touches_format (h : Twins R b s t) (hs : s.current? = some (.keyword .emit))
    (hdot : s.advance.current? = some (.symbol .dot))
    (htouches : s.currentSpan.touches s.advance.currentSpan = true) {text : String}
    (hformat : s.advance.advance.current? = some (.identifier text))
    (hparen : s.advance.advance.advance.current? = some (.symbol .leftParen)) :
    s.advance.advance.currentSpan.touches s.advance.advance.advance.currentSpan =
      t.advance.advance.currentSpan.touches t.advance.advance.advance.currentSpan := by
  obtain ⟨x, x', xs, y, y', ys, hx, hy, hl₁, hl₂, hseam⟩ := h.pair hs hdot
  rw [Fence.currentSpan_of_after hx, State.currentSpan_advance hx] at htouches
  have hrest : s.advance.advance.after = xs := State.after_advance (State.after_advance hx)
  have hrest' : t.advance.advance.after = ys := State.after_advance (State.after_advance hy)
  obtain ⟨n, ns, hn, hnl⟩ := State.after_of_current? hformat
  obtain ⟨p, ps, hp, hpl⟩ := State.after_of_current? hparen
  rw [State.after_advance hn] at hp
  subst hp
  have hsame : xs.length = ys.length := by
    have hlength := h.length
    rw [hx, hy] at hlength
    simpa using hlength
  rw [hrest] at hn
  subst hn
  match ys, hsame with
  | n' :: p' :: ps', _ =>
    rw [Fence.currentSpan_of_after hrest, Fence.currentSpan_of_after hrest',
      State.currentSpan_advance hrest, State.currentSpan_advance hrest']
    exact hseam.2 hl₁ hl₂ htouches (by rw [hnl, hpl]; rfl)

end Seams

section Expressions

variable {R : Regime} {b : Bool} {s t : State} {inner inner' : Inner}

private theorem agree_literalOrRange (hinner : Alike inner inner') (h : Twins R b s t) :
    Agree R true (literalOrRange inner) (literalOrRange inner') s t := by
  unfold literalOrRange
  refine (agree_literal hinner h).bind fun l l' u v hl h => .get_bind ?_
  have hinteger : l.integer?.isSome = l'.integer?.isSome := by
    have hrespan (f : Span → Span) (l : Literal) :
        (l.respan f).integer?.isSome = l.integer?.isSome := by
      cases l <;> simp only [Literal.respan, Literal.integer?]
    have hsome := congrArg (·.integer?.isSome) hl
    simpa only [respan, hrespan] using hsome
  refine .ite (by rw [hinteger, h.atRangeMark]) (fun hmark => ?_) fun _ => .pure ?_ h
  · refine (agree_rangeMark hmark.2 h).bind fun inclusive _ u v hinclusive h => .get_bind ?_
    cases hinclusive
    have finish {stop stop' : Option Literal} {u v : State} (hstop : R.Same stop stop')
      (h : Twins R true u v) :
        Agree R true (upToHere l.span >>= fun span =>
          pure (Expr.range span (some l) stop inclusive))
          (upToHere l'.span >>= fun span =>
              pure (Expr.range span (some l') stop' inclusive)) u v := by
      refine (agree_upToHere (same_literal_span hl) h).bind fun span span' u v hspan h => .pure ?_ h
      simp only [Regime.Same, respan, Expr.respan_range] at hl hstop hspan ⊢
      simp only [hl, hstop, hspan, Option.map_some]
    refine .ite (by rw [h.atInteger]) (fun _ => ?_) fun _ => finish rfl h
    exact (agree_literal hinner h).bind fun stop stop' u v hstop h => finish (congrArg some hstop) h
  · simp only [Regime.Same, respan, Expr.respan] at hl ⊢
    rw [hl]

private theorem agree_openRange (hinner : Alike inner inner') (hmark : s.atRangeMark = true)
    (h : Twins R b s t) :
    Agree R true (openRange inner) (openRange inner') s t := by
  unfold openRange
  refine .ask_bind ((agree_rangeMark hmark h).bind fun inclusive _ u v hinclusive huv =>
    .get_bind ?_)
  cases hinclusive
  refine .ite (by rw [huv.atInteger]) (fun _ => ?_) fun _ => agree_unexpected _ huv
  refine (agree_literal hinner huv).bind fun stop stop' u v hstop huv => .pure ?_ huv
  have hspan := same_merge h.currentSpan (same_literal_span hstop)
  simp only [Regime.Same, respan, Expr.respan_range] at hstop hspan ⊢
  simp only [hstop, hspan, Option.map_some, Option.map_none]

private theorem agree_environment (h : Twins R b s t) :
    Agree R true environment environment s t := by
  unfold environment
  refine (agree_expect (R.takes rfl) h).bind fun start start' u v hstart h => ?_
  refine (agree_expect (R.takes rfl) h).bind fun _ _ u v _ h => ?_
  refine (agree_name _ h).bind fun n n' u v hn h => .pure ?_ h
  have hspan := same_merge hstart (same_name_span hn)
  simp only [Regime.Same, respan, Expr.respan] at hn hspan ⊢
  simp only [hn, hspan]

private theorem agree_parenthesized (hinner : Alike inner inner') (h : Twins R b s t) :
    Agree R true (parenthesized inner) (parenthesized inner') s t := by
  unfold parenthesized
  refine (agree_expect (R.takes rfl) h).bind fun opener opener' u v hopener h => ?_
  refine (hinner.expression h).bind fun e e' u v he h => ?_
  refine (agree_close _ _ hopener h).bind fun closer closer' u v hcloser h => .pure ?_ h
  have hspan := same_merge hopener hcloser
  simp only [Regime.Same, respan, Expr.respan] at he hspan ⊢
  simp only [he, hspan]

private theorem same_exprs {es es' : List Expr} :
    R.Same es es' ↔ es.map (Expr.respan R.left) = es'.map (Expr.respan R.right) :=
  Iff.rfl

private theorem agree_array (hinner : Alike inner inner') (h : Twins R b s t) :
    Agree R true (array inner) (array inner') s t := by
  unfold array
  refine (agree_expect (R.takes rfl) h).bind fun opener opener' u v hopener h => ?_
  refine (agree_delimited _ _ hopener hinner.expression h).bind
    fun (elements, closer) (elements', closer') u v hr h => ?_
  obtain ⟨helements, hcloser⟩ := same_pair.1 hr
  refine .pure ?_ h
  have hspan := same_merge hopener hcloser
  rw [same_exprs] at helements
  simp only [Regime.Same, respan, Expr.respan, Expr.respanAll_eq_map] at hspan ⊢
  simp only [helements, hspan]

private theorem agree_alternative? (hinner : Alike inner inner') (h : Twins R true s t) :
    Agree R true (alternative? inner) (alternative? inner') s t := by
  unfold alternative?
  refine (agree_accept (R.takes rfl) h).bind fun r _ u v hr h => ?_
  cases hr
  refine .ite Iff.rfl (fun _ => .get_bind (.ite (by rw [h.sees]) (fun _ => ?_) fun _ => ?_))
    fun _ => .pure rfl h
  · refine (hinner.alternative h).bind fun c c' u v hc h => .pure ?_ h
    simp only [Regime.Same, respan, Alternative.respan, Option.map_some] at hc ⊢
    rw [hc]
  · refine (hinner.block h).bind fun body body' u v hbody h => .pure ?_ h
    simp only [Regime.Same, respan, Alternative.respan, Option.map_some] at hbody ⊢
    rw [hbody]

private theorem agree_conditional (hinner : Alike inner inner') (h : Twins R b s t) :
    Agree R true (conditional inner) (conditional inner') s t := by
  unfold conditional
  refine (agree_expect (R.takes rfl) h).bind fun start start' u v hstart h => ?_
  refine (hinner.expression h).bind fun e e' u v he h =>
    (hinner.block h).bind fun body body' u v hbody h => ?_
  refine (agree_alternative? hinner h).bind fun a a' u v ha h => ?_
  refine (agree_upToHere hstart h).bind fun span span' u v hspan h => .pure ?_ h
  simp only [Regime.Same, respan, Conditional.respan_mk] at he hbody ha hspan ⊢
  simp only [he, hbody, ha, hspan]

private theorem agree_arm (hinner : Alike inner inner') (h : Twins R b s t) :
    Agree R true (arm inner) (arm inner') s t := by
  unfold arm
  dsimp only
  refine (hinner.pattern h).bind fun p p' u v hp h =>
    (agree_accept (R.takes rfl) h).bind fun r _ u v hr h => ?_
  cases hr
  have finish {guard guard' : Option Expr} {u v : State} (hguard : R.Same guard guard')
    (h : Twins R true u v) :
      Agree R true
        (expect (.symbol .fatArrow) >>= fun _ => inner .expression >>= fun body =>
          pure (Arm.mk p guard body (p.span.merge body.span)))
        (expect (.symbol .fatArrow) >>= fun _ => inner' .expression >>= fun body =>
          pure (Arm.mk p' guard' body (p'.span.merge body.span))) u v := by
    refine (agree_expect (R.takes rfl) h).bind fun _ _ u v _ h => ?_
    refine (hinner.expression h).bind fun body body' u v hbody h => .pure ?_ h
    have hspan := same_merge (same_pattern_span hp) (same_expr_span hbody)
    simp only [Regime.Same, respan, Arm.respan_mk] at hp hguard hbody hspan ⊢
    simp only [hp, hguard, hbody, hspan]
  refine .ite Iff.rfl (fun _ => ?_) fun _ => finish rfl h
  exact (hinner.expression h).bind fun guard guard' u v hguard h => finish (congrArg some hguard) h

private theorem agree_choice (hinner : Alike inner inner') (h : Twins R b s t) :
    Agree R true (choice inner) (choice inner') s t := by
  unfold choice
  refine (agree_expect (R.takes rfl) h).bind fun start start' u v hstart h => ?_
  refine (hinner.expression h).bind fun e e' u v he h => ?_
  refine (agree_expect (R.takes rfl) h).bind fun opener opener' u v hopener h => ?_
  refine (agree_delimited _ _ hopener (agree_arm hinner) h).bind
    fun (arms, closer) (arms', closer') u v hr h => ?_
  obtain ⟨harms, hcloser⟩ := same_pair.1 hr
  refine .pure ?_ h
  have hspan := same_merge hstart hcloser
  simp only [Regime.Same, respan, Choice.respan, Arm.respanAll_eq_map] at he harms hspan ⊢
  simp only [he, harms, hspan]

private theorem agree_lambdaParameters (h : Twins R b s t) :
    Agree R true lambdaParameters lambdaParameters s t := by
  unfold lambdaParameters
  refine (agree_accept (R.takes rfl) h).bind_reads fun r _ u v hread hread' hr huv => ?_
  cases hr
  refine .ite Iff.rfl (fun hr => .pure rfl ?_) fun _ => ?_
  · subst hr
    obtain ⟨hs, _, rfl⟩ | ⟨_, hfalse, _⟩ := reads_accept.1 hread
    · obtain ⟨_, _, rfl⟩ | ⟨_, hfalse, _⟩ := reads_accept.1 hread'
      · exact h.read (State.current?_of_sees hs) (R.takes rfl)
      · cases hfalse
    · cases hfalse
  · refine (agree_expect (R.takes rfl) huv).bind fun opener opener' u v hopener h => ?_
    exact agree_names _ _ hopener h

private theorem agree_lambda (hinner : Alike inner inner') (h : Twins R b s t) :
    Agree R true (lambda inner) (lambda inner') s t := by
  unfold lambda
  refine .ask_bind ((agree_lambdaParameters h).bind fun params params' u v hparams huv => ?_)
  refine (agree_operand _ huv).bind fun _ _ u v _ huv =>
    (hinner.expression huv).bind fun e e' u v he huv => .pure ?_ huv
  have hspan := same_merge h.currentSpan (same_expr_span he)
  rw [same_names] at hparams
  simp only [Regime.Same, respan, Expr.respan] at he hspan ⊢
  simp only [he, hparams, hspan]

private theorem agree_arguments (hinner : Alike inner inner') (h : Twins R b s t) :
    Agree R true (arguments inner) (arguments inner') s t := by
  unfold arguments
  refine (agree_expect (R.takes rfl) h).bind fun opener opener' u v hopener h => ?_
  exact agree_delimited _ _ hopener hinner.expression h

private theorem agree_emission (hinner : Alike inner inner') (h : Twins R b s t) :
    Agree R true (emission inner) (emission inner') s t := by
  unfold emission
  refine (agree_expect (R.takes rfl) h).bind_reads fun start start' u v hread hread' hstart huv =>
    .get_bind ?_
  obtain ⟨hemit, rfl, rfl⟩ := reads_expect.1 hread
  obtain ⟨_, rfl, rfl⟩ := reads_expect.1 hread'
  have hemit := State.current?_of_sees hemit
  refine .ite ?_ (fun hdot => .advance_bind ?_) fun _ =>
    .ite ?_ (fun _ => agree_unexpected _ huv) fun _ => .pure ?_ huv
  · rw [← huv.sees]
    exact and_congr_right fun hdot => by
      rw [h.touches_emission hemit rfl (State.current?_of_sees hdot)]
  · obtain ⟨hdot, htouches⟩ := hdot
    have hdot := State.current?_of_sees hdot
    have hbehind := huv.read hdot (R.takes rfl)
    refine (agree_name _ hbehind).bind_reads fun format format' u v hread hread' hformat huv =>
      .get_bind ?_
    obtain ⟨hcurrent, hplace, rfl⟩ := reads_name.1 hread
    obtain ⟨_, hplace', rfl⟩ := reads_name.1 hread'
    have hspan := same_merge hstart (same_name_span hformat)
    refine .ite ?_ (fun _ => ?_) fun _ => .pure ?_ huv
    · rw [← huv.sees, hplace, hplace']
      exact and_congr_right fun hparen => by
        rw [h.touches_format hemit hdot htouches hcurrent (State.current?_of_sees hparen)]
    · refine (agree_arguments hinner huv).bind fun (args, closer) (args', closer') u v hr huv => ?_
      obtain ⟨hargs, hcloser⟩ := same_pair.1 hr
      have hwhole := same_merge hspan hcloser
      refine .pure ?_ huv
      rw [same_exprs] at hargs
      simp only [Regime.Same, respan, Expr.respan_emit] at hformat hwhole ⊢
      simp only [hformat, hargs, hwhole, Option.map_some]
    · simp only [Regime.Same, respan, Expr.respan_emit] at hformat hspan ⊢
      simp only [hformat, hspan, Option.map_some, Option.map_none]
  · rw [← huv.sees]
    exact and_congr_right fun hparen => by
      rw [h.touches_emission hemit rfl (State.current?_of_sees hparen)]
  · simp only [Regime.Same, respan, Expr.respan_emit] at hstart ⊢
    simp only [hstart, Option.map_none]

variable [∀ e, Advances (inner e)] [∀ e, Keeps (inner e)]

private theorem agree_braced (hinner : Alike inner inner') (h : Twins R b s t) :
    Agree R true (braced inner) (braced inner') s t := by
  unfold braced
  refine .get_bind (.ite (by rw [h.atObjectStart]) (fun _ => ?_) fun _ => ?_)
  · refine (agree_object hinner true h).bind fun o o' u v ho h => .pure ?_ h
    simp only [Regime.Same, respan, Expr.respan] at ho ⊢
    rw [ho]
  · refine (agree_itemBlock hinner h).bind fun o o' u v ho h => .pure ?_ h
    simp only [Regime.Same, respan, Expr.respan] at ho ⊢
    rw [ho]

private theorem agree_primary (hinner : Alike inner inner') (h : Twins R b s t) :
    Agree R true (primary inner) (primary inner') s t := by
  unfold primary
  refine .get_bind ?_
  rw [← h.current?]
  split
  · refine (agree_name _ h).bind fun n n' u v hn h => .pure ?_ h
    simp only [Regime.Same, respan, Expr.respan] at hn ⊢
    rw [hn]
  · exact agree_environment h
  · exact agree_openRange hinner (atRangeMark_of_current? (.inl ‹_›)) h
  · exact agree_openRange hinner (atRangeMark_of_current? (.inr ‹_›)) h
  · exact agree_parenthesized hinner h
  · exact agree_array hinner h
  · exact agree_braced hinner h
  · refine (agree_conditional hinner h).bind fun c c' u v hc h => .pure ?_ h
    simp only [Regime.Same, respan, Expr.respan] at hc ⊢
    rw [hc]
  · refine (agree_choice hinner h).bind fun c c' u v hc h => .pure ?_ h
    simp only [Regime.Same, respan, Expr.respan] at hc ⊢
    rw [hc]
  · exact agree_lambda hinner h
  · exact agree_lambda hinner h
  · refine (agree_run hinner h).bind fun r r' u v hr h => .pure ?_ h
    simp only [Regime.Same, respan, Expr.respan] at hr ⊢
    rw [hr]
  · exact agree_emission hinner h
  · exact .ite (by rw [h.atLiteral]) (fun _ => agree_literalOrRange hinner h) fun _ =>
      agree_unexpected _ h

omit [∀ e, Advances (inner e)] [∀ e, Keeps (inner e)] in
private theorem agree_suffix? (hinner : Alike inner inner') {e e' : Expr} (he : R.Same e e')
    (h : Twins R true s t) :
    Agree R true (suffix? inner e) (suffix? inner' e') s t := by
  unfold suffix?
  refine .get_bind ?_
  dsimp only
  rw [← h.current?]
  split
  · refine .advance_bind ((agree_name _ (h.read ‹_› (R.takes rfl))).bind fun n n' u v hn h =>
      .pure ?_ h)
    have hspan := same_merge (same_expr_span he) (same_name_span hn)
    simp only [Regime.Same, respan] at he hn hspan ⊢
    simp only [he, hn, hspan, Expr.respan, Option.map_some]
  · refine .advance_bind
      ((hinner.expression (h.read ‹_› (R.takes rfl))).bind fun i i' u v hi huv => ?_)
    refine (agree_close _ _ h.currentSpan huv).bind fun closer closer' u v hcloser huv =>
      .pure ?_ huv
    have hspan := same_merge (same_expr_span he) hcloser
    simp only [Regime.Same, respan] at he hi hspan ⊢
    simp only [he, hi, hspan, Expr.respan, Option.map_some]
  · refine (agree_arguments hinner h).bind fun r r' u v hr huv => ?_
    obtain ⟨hargs, hcloser⟩ := same_pair.1 hr
    refine .pure ?_ huv
    have hspan := same_merge (same_expr_span he) hcloser
    rw [same_exprs] at hargs
    simp only [Regime.Same, respan] at he hspan ⊢
    simp only [he, hargs, hspan, Expr.respan, Expr.respanAll_eq_map, Option.map_some]
  · exact .pure rfl h

private theorem same_emission {e e' : Expr} (h : R.Same e e') :
    (∃ span format args, e = .emit span format args) ↔ ∃ span format args,
    e' = .emit span format args := by
  have hrespan (f : Span → Span) (e : Expr) :
      (∃ span format args, e.respan f = .emit span format args) ↔
        ∃ span format args, e = .emit span format args := by
    cases e with
    | range => simp [Expr.respan_range]
    | emit => simp [Expr.respan_emit]
    | _ => simp [Expr.respan]
  have hsame : e.respan R.left = e'.respan R.right := h
  rw [← hrespan R.left e, hsame, hrespan]

private theorem agree_postfixed (hinner : Alike inner inner') (h : Twins R b s t) :
    Agree R true (postfixed inner) (postfixed inner') s t := by
  unfold postfixed
  refine (agree_primary hinner h).bind fun e e' u v he h => ?_
  have hemission := same_emission he
  split
  · obtain ⟨span', format', args', rfl⟩ := hemission.1 ⟨_, _, _, rfl⟩
    exact .pure he h
  · rename_i hne
    split
    · obtain ⟨_, _, _, rfl⟩ := hemission.2 ⟨_, _, _, rfl⟩
      exact absurd rfl (hne _ _ _)
    · exact agree_repeated (fun _ _ _ _ ha h => agree_suffix? hinner ha h) he h

private theorem agree_unary (hinner : Alike inner inner') (h : Twins R b s t) :
    Agree R true (unary inner) (unary inner') s t := by
  unfold unary
  refine .get_bind ?_
  rw [← h.unaryOp?]
  split
  · rename_i op hop
    have htakes : R.Takes op.lexeme := R.takes (by cases op <;> rfl)
    refine .advance_bind
      ((agree_operand _ (h.read (unaryOp?_current? hop) htakes)).bind fun _ _ u v _ huv => ?_)
    refine (hinner.operand huv).bind fun e e' u v he huv => .pure ?_ huv
    have hspan := same_merge h.currentSpan (same_expr_span he)
    simp only [Regime.Same, respan, Expr.respan] at he hspan ⊢
    simp only [he, hspan]
  · exact agree_postfixed hinner h

omit [∀ e, Advances (inner e)] [∀ e, Keeps (inner e)] in
private theorem agree_extend? {Op : Type} {operator? : Lexeme → Option Op}
    {right right' : Op → Parser Expr} {combine : Span → Op → Expr → Expr → Expr}
    (hplain : ∀ l op, operator? l = some op → l.opensDeclaration = false)
    (hright : ∀ op {b : Bool} {s t : State}, Twins R b s t →
    Agree R true (right op) (right' op) s t) (hcombine :
    ∀ {span span' : Span} {op : Op} {l l' r r' : Expr}, R.Same span span' → R.Same l l' →
    R.Same r r' →
      R.Same (combine span op l r) (combine span' op l' r'))
    {left left' : Expr} (hleft : R.Same left left') (h : Twins R true s t) :
    Agree R true (extend? operator? right combine left)
        (extend? operator? right' combine left') s t := by
  unfold extend?
  refine .get_bind ?_
  rw [← h.current?]
  split
  · exact .pure rfl h
  · split
    · exact .pure rfl h
    · rename_i l hl _ op hop
      refine .advance_bind
        ((agree_operand _ (h.read hl (R.takes (hplain l op hop)))).bind fun _ _ u v _ h => ?_)
      refine (hright op h).bind fun e e' u v he h => .pure ?_ h
      exact congrArg
        some (hcombine (same_merge (same_expr_span hleft) (same_expr_span he)) hleft he)

private theorem agree_climb (hinner : Alike inner inner') (minimum : Nat) (h : Twins R b s t) :
    Agree R true (climb inner minimum) (climb inner' minimum) s t := by
  induction minimum using climb.induct generalizing b s t with
  | case1 minimum ih =>
    unfold climb
    refine (agree_unary hinner h).bind fun e e' u v he h =>
      agree_repeated (fun l l' s t hl h => ?_) he h
    refine agree_extend? (fun l op hop => ?_) ih (fun hspan hl hr => ?_) hl h
    · rw [← operatorFrom_lexeme hop]
      rcases op with ⟨op, -⟩
      cases op <;> rfl
    · simp only [Regime.Same, respan] at hspan hl hr ⊢
      simp only [hspan, hl, hr, Expr.respan]

private theorem agree_pipe (hinner : Alike inner inner') (h : Twins R b s t) :
    Agree R true (pipe inner) (pipe inner') s t := by
  unfold pipe
  refine (agree_climb hinner _ h).bind fun e e' u v he h =>
    agree_repeated (fun l l' s t hl h => ?_) he h
  refine agree_extend? (fun l op hop => ?_) (fun _ => agree_climb hinner _)
    (fun hspan hl hr => ?_) hl h
  · rw [pipeOf_eq_some hop]
    rfl
  · simp only [Regime.Same, respan] at hspan hl hr ⊢
    simp only [hspan, hl, hr, Expr.respan]

end Expressions

/-- The parsers of the nodes at every depth do the same wherever the same is ahead. -/
theorem alike_enter (limit room : Nat) : Alike (enter limit room) (enter limit room) := by
  induction room with
  | zero =>
    have toDeep {α : Type} [Placed α] {R : Regime} {b : Bool} {s t : State} (h : Twins R b s t) :
        Agree R true (do throw ⟨.tooDeep limit, (← get).currentSpan⟩ : Parser α)
          (do throw ⟨.tooDeep limit, (← get).currentSpan⟩) s t :=
      .get_bind (.throw (h.here _ _ rfl) h)
    exact ⟨toDeep, toDeep, toDeep, toDeep, toDeep⟩
  | succ room ih =>
    exact ⟨agree_pipe ih, agree_unary ih, agree_conditional ih, agree_itemBlock ih,
      agree_pattern ih⟩

end ApiScript.Grammar
