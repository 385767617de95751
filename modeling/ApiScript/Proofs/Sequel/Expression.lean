import ApiScript.Proofs.Sequel.Declaration

set_option autoImplicit false
set_option relaxedAutoImplicit false

/-!
Runs and expressions carry over, since no operator, access or bracket begins with a keyword of
declarations.
-/

namespace ApiScript.Grammar

variable {K : Sequel} {reach room : Nat} {s t u : State}

section Runs

private theorem carries_stepName (hs : s.after ≠ []) (h : K.Extends s t) :
    Carries K reach room 0 (fun _ => 0) stepName stepName s t := by
  unfold stepName
  refine .get_bind ?_
  rw [h.current?_of_ne_nil hs, h.currentSpan hs]
  exact carries_token rfl hs h

private theorem carries_path (h : K.Extends s t) :
    Carries K reach room 0 RunItem.nesting path path s t := by
  unfold path
  refine (carries_expect _ h).step fun start u v h => (carries_expect _ h).step fun _ u v h => ?_
  refine (carries_name _ h).step fun n u v h => ?_
  refine (carries_collect (fun hread => ?_) (fun {s t} h => ?_) [n] h).step fun chain u v h => ?_
  · simp only [reads_bind, reads_accept, reads_ite, reads_pure, reduceCtorEq, false_and, and_false,
      or_false] at hread
    obtain ⟨_, _, ⟨hs, rfl, rfl⟩ | ⟨_, rfl, rfl⟩, hn⟩ := hread
    · obtain ⟨n, _, hn, _, rfl⟩ := hn.2
      exact Nat.lt_trans (Consumes.shorter hn) (State.advance_shorter (State.current?_of_sees hs))
    · simp at hn
  · refine (carries_accept rfl h).step fun r u v h => .ite Iff.rfl (fun _ => ?_) fun _ =>
      .pure rfl h
    exact (carries_name _ h).step fun n u v h => .pure rfl h
  · exact (carries_upToHere _ h).step fun span u v h => .pure rfl h

variable {inner inner' : Inner} [∀ e, Advances (inner e)] [∀ e, Advances (inner' e)]
  (hinner : Carried reach room inner inner')
include hinner

private theorem carries_variations? (h : K.Extends s t) :
    Carries K reach room 0 (fun v : Option Variations => v.elim 0 Variations.nesting)
      (variations? inner)
      (variations? inner') s t := by
  unfold variations?
  dsimp only
  refine .get_bind ((carries_accept rfl h).step_reads fun r u v hread h' =>
    .ite Iff.rfl (fun hr => ?_) fun _ => .pure rfl h')
  have hs : s.after ≠ [] := by
    rcases reads_accept.1 hread with ⟨hs, _, _⟩ | ⟨_, rfl, _⟩
    · exact State.ne_nil_of_sees hs
    · cases hr
  rw [h.currentSpan hs]
  refine (carries_accept rfl h').step fun zip u v h =>
    (carries_object hinner false h).bind fun axes u v h => ?_
  exact .pure (Nat.zero_max _).symm h

private theorem carries_inlineRun (start : Span) (h : K.Extends s t) :
    Carries K reach room 0 Run.nesting (inlineRun inner start) (inlineRun inner' start) s t := by
  unfold inlineRun
  refine (carries_name _ h).step fun target u v h =>
    (carries_optionalObject hinner h).bind fun args u v h => ?_
  refine (carries_variations? hinner h).bind fun variations u v h =>
    (carries_upToHere _ h).step fun span u v h => ?_
  refine .pure ?_ h
  rw [Nat.zero_max]
  cases args <;> cases variations <;> rfl

private theorem carries_step (hs : s.after ≠ []) (h : K.Extends s t) :
    Carries K reach room 0 RunItem.nesting (step inner) (step inner') s t := by
  unfold step
  dsimp only
  refine (carries_stepName hs h).step fun n u v h => (carries_expect _ h).step fun _ u v h => ?_
  refine (carries_name _ h).step fun operation u v h =>
    .get_bind (.ite (by rw [h.sees rfl]) (fun _ => ?_) fun _ => ?_)
  · refine (carries_object hinner false h).bind fun args u v h => .pure_bind ?_
    exact (carries_upToHere _ h).step fun span u v h => .pure (Nat.zero_max _).symm h
  · exact .pure_bind ((carries_upToHere _ h).step fun span u v h => .pure rfl h)

omit hinner [∀ e, Advances (inner e)] [∀ e, Advances (inner' e)] in
private theorem runItem_length {i : RunItem} (hs : s.sees (.keyword .path) = true)
    (h : Reads (runItem inner) s i u) :
    3 ≤ s.after.length := by
  unfold runItem at h
  rw [reads_get_bind, reads_ite, reads_ite] at h
  rcases h with ⟨hpath, _⟩ | ⟨_, ⟨_, h⟩ | ⟨_, h⟩⟩
  · simp only [State.atPathStart, Bool.and_eq_true, beq_iff_eq] at hpath
    have hlength := State.length_of_peek? hpath.2
    omega
  · unfold step at h
    obtain ⟨n, s₁, hn, h⟩ := reads_bind.1 h
    obtain ⟨_, s₂, hcolon, h⟩ := reads_bind.1 h
    obtain ⟨_, s₃, hoperation, _⟩ := reads_bind.1 h
    have hlength₁ : s₁.after.length < s.after.length := by
      simp only [stepName, reads_bind, reads_get, reads_advance, reads_pure, and_assoc,
        exists_and_left, exists_eq_left, exists_const] at hn
      rw [hn.2]
      exact State.advance_shorter (State.current?_of_sees hs)
    have hlength₂ := Consumes.shorter hcolon
    have hlength₃ := Consumes.shorter hoperation
    omega
  · obtain ⟨d, s₁, hd, hrest⟩ := reads_bind.1 h
    rw [declaration?, reads_get_bind, State.current?_of_sees hs] at hd
    obtain ⟨rfl, rfl⟩ := reads_pure.1 hd
    exact (reads_unexpected.1 hrest).elim

private theorem carries_runItem (h : K.Extends s t) :
    Carries K reach room 0 RunItem.nesting (runItem inner) (runItem inner') s t := by
  refine .ahead fun hs => ?_
  by_cases hlength : s.sees (.keyword .path) = true → 3 ≤ s.after.length
  · unfold runItem
    refine .get_bind (.ite (by rw [h.atPathStart hlength]) (fun _ => carries_path h) fun _ => ?_)
    refine .ite (by rw [h.atStepStart hs]) (fun _ => carries_step hinner hs h) fun _ => ?_
    refine (carries_declaration? hinner hs h).bind fun d u v h => ?_
    cases d with
    | some d => exact .pure (Nat.zero_max _).symm h
    | none => exact .unexpected
  · exact .fails fun i u hread => hlength fun hpath => runItem_length hpath hread

private theorem carries_run (h : K.Extends s t) : Carries K reach room 0 Run.nesting (run inner)
    (run inner') s t := by
  unfold run
  refine (carries_expect _ h).step fun start u v h =>
    .get_bind (.ite (by rw [h.sees rfl]) (fun _ => ?_) fun _ => ?_)
  · unfold runBlock
    refine (carries_expect _ h).step fun opener u v h => ?_
    refine carries_statements (carries_runItem hinner) opener (fun items closer => ?_) h
    rw [Run.nesting, RunItem.nestingAll_eq]
  · exact carries_inlineRun hinner start h

end Runs

section Expressions

private theorem carries_environment (h : K.Extends s t) :
    Carries K reach room 0 Expr.nesting environment environment s t := by
  unfold environment
  refine (carries_expect _ h).step fun start u v h => (carries_expect _ h).step fun _ u v h => ?_
  exact (carries_name _ h).step fun n u v h => .pure rfl h

private theorem carries_lambdaParameters (h : K.Extends s t) :
    Carries K reach room 0 (fun _ => 0) lambdaParameters lambdaParameters s t := by
  unfold lambdaParameters
  refine (carries_accept rfl h).step fun r u v h => .ite Iff.rfl (fun _ => .pure rfl h) fun _ => ?_
  exact (carries_expect _ h).step fun opener u v h => carries_names _ _ _ h

private theorem carries_extend? {Op : Type} {operator? : Lexeme → Option Op}
    {right right' : Op → Parser Expr} {combine : Span → Op → Expr → Expr → Expr}
    (hoperator : ∀ l, l.opensDeclaration = true → operator? l = none)
    (hcombine : ∀ span op left e, (combine span op left e).nesting = max left.nesting e.nesting)
    (hright : ∀ op {s t}, K.Extends s t →
    Carries K reach room 0 Expr.nesting (right op) (right' op) s t) (left : Expr)
    (h : K.Extends s t) :
    Carries K reach room left.nesting (fun r => (r.getD left).nesting)
      (extend? operator? right combine left)
      (extend? operator? right' combine left) s t := by
  unfold extend?
  refine .get_bind ?_
  by_cases hs : s.after = []
  · rw [State.current?_of_nil hs]
    cases ht : t.current? with
    | none => exact .pure rfl h
    | some l =>
      dsimp only
      rw [hoperator l (h.opens_of_nil hs ht)]
      exact .pure rfl h
  rw [h.current?_of_ne_nil hs]
  split
  · exact .pure rfl h
  · split
    · exact .pure rfl h
    · refine .advance_bind ((carries_operand _ (h.advance hs)).step fun _ u v h => ?_)
      exact (hright _ h).bind fun e u v h => .pure (hcombine _ _ _ _) h

variable {inner inner' : Inner} (hinner : Carried reach room inner inner')
include hinner

private theorem carries_literalOrRange (h : K.Extends s t) :
    Carries K reach room 0 Expr.nesting (literalOrRange inner) (literalOrRange inner') s t := by
  unfold literalOrRange
  dsimp only
  refine (carries_literal hinner h).bind fun l u v h => .get_bind ?_
  refine .ite (by rw [h.atRangeMark]) (fun hmark => ?_) fun _ => .pure (Nat.zero_max _).symm h
  refine (carries_rangeMark hmark.2 h).step fun inclusive u v h => .get_bind ?_
  refine .ite (by rw [h.atInteger]) (fun _ => ?_) fun _ => .pure_bind ?_
  · refine (carries_literal hinner h).bind fun stop u v h => .pure_bind ?_
    refine (carries_upToHere _ h).step fun span u v h => .pure ?_ h
    rw [Nat.zero_max, Expr.nesting]
  · refine (carries_upToHere _ h).step fun span u v h => .pure ?_ h
    rw [Nat.zero_max, Expr.nesting, Nat.max_zero]

private theorem carries_openRange (hs : s.atRangeMark = true) (h : K.Extends s t) :
    Carries K reach room 0 Expr.nesting (openRange inner) (openRange inner') s t := by
  unfold openRange
  refine .ask_bind ?_
  rw [h.currentSpan (State.ne_nil_of_atRangeMark hs)]
  refine (carries_rangeMark hs h).step fun inclusive u v h => .get_bind ?_
  refine .ite (by rw [h.atInteger]) (fun _ => ?_) fun _ => .unexpected
  refine (carries_literal hinner h).bind fun stop u v h => .pure ?_ h
  rw [Expr.nesting]

private theorem carries_parenthesized (h : K.Extends s t) :
    Carries K reach room 0 Expr.nesting (parenthesized inner) (parenthesized inner') s t := by
  unfold parenthesized
  refine (carries_expect _ h).step fun opener u v h => (hinner.expression h).bind fun e u v h => ?_
  exact (carries_close _ _ _ h).step fun closer u v h => .pure (Nat.zero_max _).symm h

private theorem carries_alternative? (h : K.Extends s t) :
    Carries K reach room 0 (fun a : Option Alternative => a.elim 0 Alternative.nesting)
      (alternative? inner)
      (alternative? inner') s t := by
  unfold alternative?
  refine (carries_accept rfl h).step fun r u v h => .ite Iff.rfl (fun _ => .get_bind ?_) fun _ =>
    .pure rfl h
  refine .ite (by rw [h.sees rfl]) (fun _ => ?_) fun _ => ?_
  · exact (hinner.alternative h).bind fun c u v h => .pure (Nat.zero_max _).symm h
  · exact (hinner.block h).bind fun b u v h => .pure (Nat.zero_max _).symm h

private theorem carries_conditional (h : K.Extends s t) :
    Carries K reach room 0 Conditional.nesting (conditional inner) (conditional inner') s t := by
  unfold conditional
  refine (carries_expect _ h).step fun start u v h =>
    (hinner.expression h).bind fun condition u v h => ?_
  refine (hinner.block h).bind fun consequence u v h =>
    (carries_alternative? hinner h).bind fun alternative u v h => ?_
  refine (carries_upToHere _ h).step fun span u v h => .pure ?_ h
  rw [Nat.zero_max, Nat.max_assoc]
  cases alternative <;> rfl

private theorem carries_arm (h : K.Extends s t) : Carries K reach room 0 Arm.nesting (arm inner)
    (arm inner') s t := by
  unfold arm
  dsimp only
  refine (hinner.pattern h).bind fun p u v h => (carries_accept rfl h).step fun r u v h => ?_
  have finish {guard : Option Expr} {levels : Nat} {u v : State}
      (hlevels : levels = max (p.nesting + 1) (guard.elim 0 (·.nesting + 1))) (h : K.Extends u v) :
      Carries K reach room levels Arm.nesting
        (do
          let _ ← expect (.symbol .fatArrow)
          let body ← inner .expression
          return ⟨p, guard, body, p.span.merge body.span⟩)
        (do
          let _ ← expect (.symbol .fatArrow)
          let body ← inner' .expression
          return ⟨p, guard, body, p.span.merge body.span⟩) u v := by
    refine (carries_expect _ h).step fun _ u v h => (hinner.expression h).bind fun body u v h =>
      .pure ?_ h
    rw [hlevels, Nat.max_assoc]
    cases guard <;> rfl
  refine .ite Iff.rfl (fun _ => ?_) fun _ => ?_
  · exact (hinner.expression h).bind fun guard u v h => finish (by rw [Nat.zero_max]; rfl) h
  · exact finish (by rw [Nat.zero_max, Option.elim_none, Nat.max_zero]) h

private theorem carries_lambda (hs : s.after ≠ []) (h : K.Extends s t) :
    Carries K reach room 0 Expr.nesting (lambda inner) (lambda inner') s t := by
  unfold lambda
  refine .ask_bind ?_
  rw [h.currentSpan hs]
  refine (carries_lambdaParameters h).step fun params u v h =>
    (carries_operand _ h).step fun _ u v h => ?_
  exact (hinner.expression h).bind fun body u v h => .pure (Nat.zero_max _).symm h

variable [∀ e, Advances (inner e)] [∀ e, Advances (inner' e)]

private theorem carries_array (h : K.Extends s t) :
    Carries K reach room 0 Expr.nesting (array inner) (array inner') s t := by
  unfold array
  refine (carries_expect _ h).step fun opener u v h => ?_
  refine (carries_delimited _ _ _ (fun h => hinner.expression h) h).bind fun r u v h => .pure ?_ h
  rw [Nat.zero_max, Expr.nesting, Expr.nestingEach_eq]

private theorem carries_choice (h : K.Extends s t) :
    Carries K reach room 0 Choice.nesting (choice inner) (choice inner') s t := by
  unfold choice
  refine (carries_expect _ h).step fun start u v h =>
    (hinner.expression h).bind fun subject u v h => ?_
  refine (carries_expect _ h).step fun opener u v h => ?_
  refine (carries_delimited _ _ _ (fun h => carries_arm hinner h) h).bind fun r u v h => .pure ?_ h
  rw [Nat.zero_max, Choice.nesting, Arm.nestingAll_eq]

private theorem carries_arguments (h : K.Extends s t) :
    Carries K reach room 0 (fun r => Expr.nestingEach r.1) (arguments inner)
      (arguments inner') s t := by
  unfold arguments
  refine (carries_expect _ h).step fun opener u v h => ?_
  simp only [Expr.nestingEach_eq]
  exact carries_delimited _ _ _ (fun h => hinner.expression h) h

private theorem carries_emission (h : K.Extends s t) :
    Carries K reach room 0 Expr.nesting (emission inner) (emission inner') s t := by
  unfold emission
  refine (carries_expect _ h).step fun start u v h => .get_bind ?_
  refine .ite (h.touches rfl start) (fun hdot => ?_) fun _ =>
    .ite (h.touches rfl start) (fun _ => .unexpected) fun _ => ?_
  · have hadvance := h.advance (State.ne_nil_of_sees hdot.1)
    refine .advance_bind ((carries_name _ hadvance).step fun format u v h => .get_bind ?_)
    refine .ite (h.touches rfl format.span) (fun _ => ?_) fun _ => .pure rfl h
    exact (carries_arguments hinner h).bind fun r u v h => .pure (Nat.zero_max _).symm h
  · exact .pure rfl h

private theorem carries_suffix? (e : Expr) (h : K.Extends s t) :
    Carries K reach room e.nesting (fun r => (r.getD e).nesting) (suffix? inner e)
      (suffix? inner' e) s t := by
  unfold suffix?
  refine .get_bind ?_
  dsimp only
  by_cases hs : s.after = []
  · rw [State.current?_of_nil hs]
    cases ht : t.current? with
    | none => exact .pure rfl h
    | some l =>
      obtain ⟨k, rfl, -⟩ := exists_keyword_of_opensDeclaration (h.opens_of_nil hs ht)
      exact .pure rfl h
  rw [h.current?_of_ne_nil hs, h.currentSpan hs]
  split
  · exact .advance_bind ((carries_name _ (h.advance hs)).step fun n u v h => .pure rfl h)
  · refine .advance_bind ((hinner.expression (h.advance hs)).bind fun index u v h => ?_)
    exact (carries_close _ _ _ h).step fun closer u v h => .pure rfl h
  · exact (carries_arguments hinner h).bind fun r u v h => .pure rfl h
  · exact .pure rfl h

variable [Consumes (inner .expression)] [Consumes (inner' .expression)]

private theorem carries_braced (h : K.Extends s t) :
    Carries K reach room 0 Expr.nesting (braced inner) (braced inner') s t := by
  unfold braced
  refine .get_bind (.ite (by rw [h.atObjectStart]) (fun _ => ?_) fun _ => ?_)
  · exact (carries_object hinner true h).bind fun o u v h => .pure (Nat.zero_max _).symm h
  · exact (carries_itemBlock hinner h).bind fun b u v h => .pure (Nat.zero_max _).symm h

private theorem carries_primary (h : K.Extends s t) :
    Carries K reach room 0 Expr.nesting (primary inner) (primary inner') s t := by
  refine .ahead fun hs => ?_
  unfold primary
  refine .get_bind ?_
  rw [h.current?_of_ne_nil hs]
  split
  · exact (carries_name _ h).step fun n u v h => .pure rfl h
  · exact carries_environment h
  · exact carries_openRange hinner (by simp [State.atRangeMark, State.sees, *]) h
  · exact carries_openRange hinner (by simp [State.atRangeMark, State.sees, *]) h
  · exact carries_parenthesized hinner h
  · exact carries_array hinner h
  · exact carries_braced hinner h
  · exact (carries_conditional hinner h).bind fun c u v h => .pure (Nat.zero_max _).symm h
  · exact (carries_choice hinner h).bind fun c u v h => .pure (Nat.zero_max _).symm h
  · exact carries_lambda hinner hs h
  · exact carries_lambda hinner hs h
  · exact (carries_run hinner h).bind fun r u v h => .pure (Nat.zero_max _).symm h
  · exact carries_emission hinner h
  · exact .ite (by rw [h.atLiteral]) (fun _ => carries_literalOrRange hinner h) fun _ => .unexpected

private theorem carries_postfixed (h : K.Extends s t) :
    Carries K reach room 0 Expr.nesting (postfixed inner) (postfixed inner') s t := by
  unfold postfixed
  refine (carries_primary hinner h).bind fun e u v h => ?_
  rw [Nat.zero_max]
  split
  · exact .pure rfl h
  · exact carries_repeated suffix?_productive suffix?_productive
      (fun e {s t} h => carries_suffix? hinner e h) e h

private theorem carries_unary (h : K.Extends s t) :
    Carries K reach room 0 Expr.nesting (unary inner) (unary inner') s t := by
  refine .ahead fun hs => ?_
  unfold unary
  refine .get_bind ?_
  rw [h.unaryOp?, h.currentSpan hs]
  split
  · refine .advance_bind ((carries_operand _ (h.advance hs)).step fun _ u v h => ?_)
    exact (hinner.operand h).bind fun e u v h => .pure (Nat.zero_max _).symm h
  · exact carries_postfixed hinner h

private theorem carries_climb (minimum : Nat) (h : K.Extends s t) :
    Carries K reach room 0 Expr.nesting (climb inner minimum) (climb inner' minimum) s t := by
  induction minimum using climb.induct generalizing s t with
  | case1 minimum ih =>
    unfold climb
    refine (carries_unary hinner h).bind fun e u v h => ?_
    rw [Nat.zero_max]
    refine carries_repeated extend?_productive extend?_productive (fun e {s t} h => ?_) e h
    refine carries_extend? (fun l hl => ?_) (fun _ _ _ _ => rfl) (fun op {_ _} h => ih op h) e h
    obtain ⟨k, rfl, hk⟩ := exists_keyword_of_opensDeclaration hl
    cases k <;> first | rfl | cases hk

private theorem carries_pipe (h : K.Extends s t) :
    Carries K reach room 0 Expr.nesting (pipe inner) (pipe inner') s t := by
  unfold pipe
  refine (carries_climb hinner _ h).bind fun e u v h => ?_
  rw [Nat.zero_max]
  refine carries_repeated extend?_productive extend?_productive (fun e {s t} h => ?_) e h
  refine carries_extend? (fun l hl => ?_) (fun _ _ _ _ => rfl)
    (fun _ {_ _} h => carries_climb hinner _ h) e h
  obtain ⟨k, rfl, -⟩ := exists_keyword_of_opensDeclaration hl
  rfl

end Expressions

section Levels

variable {limit limit' taken levels : Nat} {next : State → Prop}

private theorem Carry.deeper (h : Carry K reach room 0 levels s u next) :
    Carry K (reach + 1) (room + 1) 0 (levels + 1) s u next where
  kept := h.kept
  taken_le _ := Nat.zero_le _
  le_reach hlog _ := Nat.succ_le_succ (h.le_reach hlog (Nat.zero_le _))
  carry hlog hroom := h.carry hlog (Nat.le_of_succ_le_succ hroom)

private theorem Carry.without_room {next' : State → Prop}
    (h : Carry K reach room 0 levels s u next) :
    Carry K (reach + 1) 0 0 (levels + 1) s u next' where
  kept := h.kept
  taken_le _ := Nat.zero_le _
  le_reach hlog _ := Nat.succ_le_succ (h.le_reach hlog (Nat.zero_le _))
  carry _ hroom := absurd hroom (Nat.not_succ_le_zero _)

private theorem carries_enter {e : Entry} {cost : e.Node → Nat} (h : ∀ room,
      Carries K reach room 0 cost (node (enter limit reach) e) (node (enter limit' room) e) s t) :
    Carries K (reach + 1) room 0 (fun a => cost a + 1) (enter limit (reach + 1) e)
        (enter limit' room e) s t := by
  intro a u hread
  cases room with
  | zero => exact (h 0 a u hread).without_room
  | succ room => exact (h room a u hread).deeper

/-- Under any two limits, the nodes of the first are read under the second where it has room for
them. -/
theorem carried_enter (limit limit' reach room : Nat) : Carried reach room (enter limit reach)
    (enter limit' room) := by
  induction reach generalizing room with
  | zero =>
    have never {K : Sequel} {e : Entry} {cost : e.Node → Nat} {s t : State} :
        Carries K 0 room 0 cost (enter limit 0 e) (enter limit' room e) s t :=
      .fails fun a u hread => by cases hread
    exact ⟨fun _ => never (e := .expression), fun _ => never (e := .operand), fun _ =>
      never (e := .alternative), fun _ => never (e := .block), fun _ => never (e := .pattern)⟩
  | succ reach ih =>
    exact
      { expression := fun h => carries_enter (e := .expression) fun room => carries_pipe (ih room) h
        operand := fun h => carries_enter (e := .operand) fun room => carries_unary (ih room) h
        alternative :=
      fun h => carries_enter (e := .alternative) fun room => carries_conditional (ih room) h
        block := fun h => carries_enter (e := .block) fun room => carries_itemBlock (ih room) h
        pattern := fun h => carries_enter (e := .pattern) fun room => carries_pattern (ih room) h }

end Levels

end ApiScript.Grammar
