import ApiScript.Proofs.Shape.Compound

set_option autoImplicit false
set_option relaxedAutoImplicit false

/-!
How far the body of a lambda extends. An operator goes on with the body, so that no lambda is the
left operand of one. What is written behind a body goes on with it too, unless the body ends in an
emission, which takes no more than it has: then it goes on with the lambda.
-/

namespace ApiScript

open HasNodes (nodes)

namespace Expr

def isLambda : Expr → Bool
  | lambda _ _ _ => true
  | _ => false

/-- The last thing written in the expression, outside of brackets, is an emission. -/
inductive EndsInEmission : Expr → Prop
  | emit (s : Span) (format : Option Name) (args : Option (List Expr)) :
    EndsInEmission (emit s format args)
  | pipe (s : Span) (left : Expr) {right : Expr} (h : right.EndsInEmission) :
    EndsInEmission (pipe s left right)
  | binary (s : Span) (op : BinaryOp) (left : Expr) {right : Expr} (h : right.EndsInEmission) :
    EndsInEmission (binary s op left right)
  | unary (s : Span) (op : UnaryOp) {e : Expr} (h : e.EndsInEmission) :
    EndsInEmission (unary s op e)
  | lambda (s : Span) (params : List Name) {body : Expr} (h : body.EndsInEmission) :
    EndsInEmission (lambda s params body)

def base? : Expr → Option Expr
  | call _ e _ | member _ e _ | index _ e _ => some e
  | _ => none

def left? : Expr → Option Expr
  | pipe _ left _ | binary _ _ left _ => some left
  | _ => none

/-- The body of a lambda takes all that is behind it: no lambda is a left operand, and nothing is
written behind one whose body does not end in an emission. -/
structure Reaching (e : Expr) : Prop where
  base : ∀ b ∈ e.base?, b.isLambda = true → b.EndsInEmission
  left : ∀ l ∈ e.left?, l.isLambda = false

namespace Reaching

variable {e b l : Expr}

private theorem of_none (hbase : e.base? = none) (hleft : e.left? = none) : e.Reaching where
  base b hb := by
    rw [hbase] at hb
    cases hb
  left l hl := by
    rw [hleft] at hl
    cases hl

private theorem of_base (hbase : e.base? = some b) (hleft : e.left? = none)
    (h : b.isLambda = true → b.EndsInEmission) :
    e.Reaching where
  base b' hb := by
    rw [hbase] at hb
    obtain rfl := Option.some.inj hb
    exact h
  left l hl := by
    rw [hleft] at hl
    cases hl

private theorem of_left (hbase : e.base? = none) (hleft : e.left? = some l)
    (h : l.isLambda = false) : e.Reaching where
  base b hb := by
    rw [hbase] at hb
    cases hb
  left l' hl := by
    rw [hleft] at hl
    obtain rfl := Option.some.inj hl
    exact h

end Reaching

end Expr

def Node.Reaching : Node → Prop
  | expr e => e.Reaching
  | _ => True

instance : OfCompounds Node.Reaching where
  plain {n} h := by
    cases n with
    | expr e =>
      cases e with
      | pipe | binary | unary | call | member | index => cases h
      | _ => exact Expr.Reaching.of_none rfl rfl
    | _ => trivial

namespace Grammar

def State.atSuffix (s : State) : Bool :=
  s.sees (.symbol .dot) || s.sees (.symbol .leftBracket) || s.sees (.symbol .leftParen)

def State.atOperator (s : State) : Bool :=
  s.current?.any fun l => (pipeOf l).isSome || (BinaryOp.ofLexeme? l).isSome

/-- What is ahead of an expression that was read: something to be written behind it only where it
ends in an emission, and an operator only where it is no lambda. -/
structure Ends (e : Expr) (t : State) : Prop where
  suffix : t.atSuffix = true → e.EndsInEmission
  operator : e.isLambda = true → t.atOperator = false

/-- The readers of expressions one level deeper take all that goes on with an expression. -/
structure Extends (inner : Inner) : Prop where
  expression {s t : State} {e : Expr} : Reads (inner .expression) s e t → Ends e t ∧
    t.atOperator = false
  operand {s t : State} {e : Expr} : Reads (inner .operand) s e t → Ends e t

variable {inner : Inner} {s t u : State}

private theorem Ends.of_not_lambda {e : Expr} (hlambda : e.isLambda = false)
    (h : t.atSuffix = true → e.EndsInEmission) :
    Ends e t where
  suffix := h
  operator he := by
    rw [hlambda] at he
    cases he

section Primary

private theorem isLambda_of_openRange {e : Expr} (h : Reads (openRange inner) s e t) :
    e.isLambda = false := by
  simp only [openRange, reads_bind, reads_ask, reads_get, reads_ite, reads_pure, reads_unexpected,
    and_assoc, exists_and_left, exists_eq_left, and_false, or_false] at h
  obtain ⟨_, _, _, _, _, _, _, rfl, _⟩ := h
  rfl

private theorem reads_lambda_of_primary {e : Expr} (he : e.isLambda = true)
    (h : Reads (primary inner) s e t) :
    Reads (lambda inner) s e t := by
  unfold primary at h
  rw [reads_get_bind] at h
  split at h
  · simp only [reads_bind, reads_pure] at h
    obtain ⟨n, _, _, rfl, _⟩ := h
    cases he
  · simp only [environment, reads_bind, reads_pure] at h
    obtain ⟨_, _, _, _, _, _, n, _, _, rfl, _⟩ := h
    cases he
  · rw [isLambda_of_openRange h] at he
    cases he
  · rw [isLambda_of_openRange h] at he
    cases he
  · simp only [parenthesized, reads_bind, reads_pure] at h
    obtain ⟨_, _, _, _, _, _, _, _, _, rfl, _⟩ := h
    cases he
  · simp only [array, reads_bind, reads_pure] at h
    obtain ⟨_, _, _, _, _, _, rfl, _⟩ := h
    cases he
  · simp only [braced, reads_bind, reads_get, reads_ite, reads_pure, and_assoc, exists_and_left,
      exists_eq_left] at h
    rcases h with ⟨_, _, _, _, rfl, _⟩ | ⟨_, _, _, _, rfl, _⟩ <;> cases he
  · simp only [reads_bind, reads_pure] at h
    obtain ⟨_, _, _, rfl, _⟩ := h
    cases he
  · simp only [reads_bind, reads_pure] at h
    obtain ⟨_, _, _, rfl, _⟩ := h
    cases he
  · exact h
  · exact h
  · simp only [reads_bind, reads_pure] at h
    obtain ⟨_, _, _, rfl, _⟩ := h
    cases he
  · simp only [emission, reads_bind, reads_get, reads_ite, reads_advance, reads_pure,
      reads_unexpected, and_assoc, exists_and_left, exists_eq_left, exists_const, and_false,
      false_or] at h
    obtain ⟨_, _, _, ⟨_, _, _, _, _, ⟨_, _, _, _, _, rfl, _⟩ | ⟨_, rfl, _⟩⟩ | ⟨_, _, rfl, _⟩⟩ :=
      h <;> cases he
  · simp only [reads_ite, reads_unexpected, and_false, or_false] at h
    obtain ⟨_, h⟩ := h
    simp only [literalOrRange, reads_bind, reads_get, reads_ite, reads_pure, and_assoc,
      exists_and_left, exists_eq_left] at h
    obtain ⟨_, _, _, ⟨_, _, _, _, _, ⟨_, _, _, _, _, _, _, rfl, _⟩ | ⟨_, _, _, _, rfl, _⟩⟩ | ⟨_,
      rfl, _⟩⟩ := h <;>
    cases he

private theorem Extends.primary (hi : Extends inner) {e : Expr} (h : Reads (primary inner) s e t)
    (he : e.isLambda = true) :
    Ends e t := by
  have hlambda := reads_lambda_of_primary he h
  simp only [lambda, reads_bind, reads_ask, reads_operand, reads_pure, and_assoc, exists_and_left,
    exists_eq_left, exists_const] at hlambda
  obtain ⟨params, _, _, _, body, _, hbody, rfl, rfl⟩ := hlambda
  obtain ⟨hends, hoperator⟩ := hi.expression hbody
  exact ⟨fun hsuffix => .lambda _ params (hends.suffix hsuffix), fun _ => hoperator⟩

end Primary

section Suffixes

theorem atSuffix_of_suffix?_none {e : Expr} (h : Reads (suffix? inner e) s none t) :
    s.atSuffix = false := by
  unfold suffix? at h
  rw [reads_get_bind] at h
  split at h
  · simp only [reads_bind, reads_pure, reduceCtorEq, false_and, and_false, exists_false] at h
  · simp only [reads_bind, reads_pure, reduceCtorEq, false_and, and_false, exists_false] at h
  · simp only [reads_bind, reads_pure, reduceCtorEq, false_and, and_false, exists_false] at h
  · rename_i hdot hbracket hparen
    simp only [State.atSuffix, State.sees, Bool.or_eq_false_iff, beq_eq_false_iff_ne]
    exact ⟨⟨hdot, hbracket⟩, hparen⟩

variable [∀ e, Brings Node.Reaching (inner e)]

private theorem throughout_suffix {e e' : Expr} [Throughout Node.Reaching e]
    (he : e.isLambda = true → Ends e s) (h : Reads (suffix? inner e) s (some e') t) :
    Throughout Node.Reaching e' ∧ e'.isLambda = false := by
  have hreaching {e' : Expr} (hbase : e'.base? = some e) (hleft : e'.left? = none)
    (hs : s.atSuffix = true) :
      e'.Reaching := .of_base hbase hleft fun hlambda => (he hlambda).suffix hs
  unfold suffix? at h
  rw [reads_get_bind] at h
  split at h
  · rename_i hdot
    simp only [reads_bind, reads_pure, Option.some.injEq] at h
    obtain ⟨_, _, _, n, _, _, rfl, _⟩ := h
    have hs : s.atSuffix = true := by simp [State.atSuffix, State.sees, hdot]
    exact ⟨.ofParts (e, n) rfl rfl (hreaching rfl rfl hs), rfl⟩
  · rename_i hbracket
    simp only [reads_bind, reads_pure, Option.some.injEq] at h
    obtain ⟨_, _, _, index, _, hindex, _, _, _, rfl, _⟩ := h
    have hs : s.atSuffix = true := by simp [State.atSuffix, State.sees, hbracket]
    have : Throughout Node.Reaching index :=
      (inferInstance : Brings Node.Reaching (inner .expression)).throughout hindex
    exact ⟨.ofParts (e, index) rfl rfl (hreaching rfl rfl hs), rfl⟩
  · rename_i hparen
    simp only [reads_bind, reads_pure, Option.some.injEq] at h
    obtain ⟨r, _, hr, rfl, _⟩ := h
    have hs : s.atSuffix = true := by simp [State.atSuffix, State.sees, hparen]
    have : Throughout Node.Reaching r := Brings.throughout hr
    exact ⟨.ofParts (e, r.1) rfl
      (by simp [nodes, Node.children, Node.childrenOfExpr, List.map_eq_flatMap])
      (hreaching rfl rfl hs), rfl⟩
  · simp only [reads_pure, reduceCtorEq, false_and] at h

variable [∀ e, Advances (inner e)]

private theorem Extends.postfixed (hi : Extends inner) {e : Expr}
    (h : Reads (postfixed inner) s e t) :
    Throughout Node.Reaching e ∧ Ends e t := by
  obtain ⟨e₀, s₁, he₀, hrest⟩ := reads_bind.1 h
  have hthroughout : Throughout Node.Reaching e₀ := Brings.throughout he₀
  have hlambda := hi.primary he₀
  clear he₀ h
  split at hrest
  · obtain ⟨rfl, rfl⟩ := reads_pure.1 hrest
    exact ⟨hthroughout, .of_not_lambda rfl fun _ => .emit _ _ _⟩
  · rename_i hemit
    clear hemit
    rw [reads_repeated suffix?_productive] at hrest
    induction hrest with
    | @done e s t hnone =>
      obtain rfl := suffix?_none hnone
      have hsuffix : t.atSuffix = false := atSuffix_of_suffix?_none hnone
      refine ⟨hthroughout, fun h => ?_, fun h => (hlambda h).operator h⟩
      rw [hsuffix] at h
      cases h
    | more hsome _ ih =>
      obtain ⟨hthroughout', hlambda'⟩ := throughout_suffix hlambda hsome
      refine ih hthroughout' fun h => ?_
      rw [hlambda'] at h
      cases h

private theorem Extends.unary (hi : Extends inner) {e : Expr} (h : Reads (unary inner) s e t) :
    Throughout Node.Reaching e ∧ Ends e t := by
  unfold Grammar.unary at h
  rw [reads_get_bind] at h
  split at h
  · rename_i op _
    simp only [reads_bind, reads_pure] at h
    obtain ⟨_, _, _, _, _, _, e, _, he, rfl, rfl⟩ := h
    have : Throughout Node.Reaching e :=
      (inferInstance : Brings Node.Reaching (inner .operand)).throughout he
    have hends : Ends e t := hi.operand he
    have hreaching : (Expr.unary (s.currentSpan.merge e.span) op e).Reaching := .of_none rfl rfl
    exact ⟨.ofParts e rfl rfl hreaching, .of_not_lambda rfl fun hsuffix =>
      .unary _ op (hends.suffix hsuffix)⟩
  · exact hi.postfixed h

end Suffixes

section Operators

variable {Op : Type} {operator? : Lexeme → Option Op} {right : Op → Parser Expr}
  {combine : Span → Op → Expr → Expr → Expr}

/-- Operators and their right operands make a larger expression of the left operand, which is no
lambda: a lambda would have taken the operator. `Q` is what is known of the state behind each
operand. -/
private theorem throughout_extended [∀ op, Advances (right op)] {Q : State → Prop}
    (hright : ∀ op {s e t}, Reads (right op) s e t → Throughout Node.Reaching e ∧ Ends e t ∧ Q t)
    (hoperator : ∀ {s : State} {l op}, s.current? = some l → operator? l = some op →
    s.atOperator = true)
    (hcombine : ∀ {left e : Expr} (span : Span) (op : Op), left.isLambda = false →
    Throughout Node.Reaching left →
      Throughout Node.Reaching e → Throughout Node.Reaching (combine span op left e))
    (hends : ∀ (span : Span) (op : Op) (left e : Expr), (combine span op left e).isLambda = false ∧
      (e.EndsInEmission → (combine span op left e).EndsInEmission))
    {left e : Expr} (hleft : Throughout Node.Reaching left ∧ Ends left t ∧ Q t)
    (h : Rounds (extend? operator? right combine) left t e u) :
    Throughout Node.Reaching e ∧ Ends e u ∧ Q u ∧ ∀ l ∈ u.current?, operator? l = none := by
  induction h with
  | done hnone =>
    obtain ⟨rfl, hoperator?⟩ := extend?_none hnone
    exact ⟨hleft.1, hleft.2.1, hleft.2.2, hoperator?⟩
  | @more left _ _ s _ _ hsome _ ih =>
    obtain ⟨l, op, operand, hl, hop, _, hread, rfl⟩ := extend?_some hsome
    obtain ⟨hthroughout, hbehind, hstate⟩ := hright op hread
    have hlambda : left.isLambda = false := by
      refine Bool.eq_false_iff.2 fun hlambda => ?_
      have hfree := hleft.2.1.operator hlambda
      rw [hoperator hl hop] at hfree
      cases hfree
    obtain ⟨hnot, hemission⟩ := hends (left.span.merge operand.span) op left operand
    refine ih ⟨hcombine _ op hlambda hleft.1 hthroughout, ?_, hstate⟩
    exact .of_not_lambda hnot fun hsuffix => hemission (hbehind.suffix hsuffix)

private theorem throughout_binary {left e : Expr} (s : Span) (op : BinaryOp)
    (hlambda : left.isLambda = false) (hleft : Throughout Node.Reaching left)
    (he : Throughout Node.Reaching e) :
    Throughout Node.Reaching (Expr.binary s op left e) := by
  have hreaching : (Expr.binary s op left e).Reaching := .of_left rfl rfl hlambda
  exact .ofParts (left, e) rfl rfl hreaching

private theorem throughout_pipe {left e : Expr} (s : Span) (hlambda : left.isLambda = false)
    (hleft : Throughout Node.Reaching left) (he : Throughout Node.Reaching e) :
    Throughout Node.Reaching (Expr.pipe s left e) := by
  have hreaching : (Expr.pipe s left e).Reaching := .of_left rfl rfl hlambda
  exact .ofParts (left, e) rfl rfl hreaching

variable [∀ e, Advances (inner e)] [∀ e, Brings Node.Reaching (inner e)]

private theorem Extends.climb (hi : Extends inner) (minimum : Nat) {e : Expr}
    (h : Reads (climb inner minimum) s e t) : Throughout Node.Reaching e ∧ Ends e t ∧
      ∀ l ∈ t.current?, operatorFrom minimum l = none := by
  induction minimum using climb.induct generalizing s e t with
  | case1 minimum ih =>
    unfold Grammar.climb at h
    obtain ⟨left, s₁, hleft, hrest⟩ := reads_bind.1 h
    rw [reads_repeated extend?_productive] at hrest
    have hoperator {s : State} {l : Lexeme} {op : {op : BinaryOp // minimum ≤ op.precedence}}
        (hl : s.current? = some l) (hop : operatorFrom minimum l = some op) :
        s.atOperator = true := by
      obtain ⟨op, hop, -⟩ := Option.bind_eq_some_iff.1 hop
      simp [State.atOperator, hl, hop]
    obtain ⟨hleft, hbehind⟩ := hi.unary hleft
    obtain ⟨hthroughout, hends, -, hnone⟩ := throughout_extended (Q := fun _ => True)
      (fun op {_ _ _} h => (ih op h).imp_right fun h => ⟨h.1, trivial⟩) hoperator
      (fun s op => throughout_binary s op.1) (fun s op left e => ⟨rfl, .binary s op.1 left⟩)
      ⟨hleft, hbehind, trivial⟩ hrest
    exact ⟨hthroughout, hends, hnone⟩

private theorem Extends.pipe (hi : Extends inner) {e : Expr} (h : Reads (pipe inner) s e t) :
    Throughout Node.Reaching e ∧ Ends e t ∧ t.atOperator = false := by
  obtain ⟨left, s₁, hleft, hrest⟩ := reads_bind.1 h
  rw [reads_repeated extend?_productive] at hrest
  have hoperator {s : State} {l : Lexeme} {op : Unit} (hl : s.current? = some l)
    (hop : pipeOf l = some op) :
      s.atOperator = true := by
    simp [State.atOperator, hl, hop]
  obtain ⟨hthroughout, hends, hbinary, hpipe⟩ :=
    throughout_extended (fun _ {_ _ _} => hi.climb 0) hoperator
    (fun s _ => throughout_pipe s) (fun s _ left e => ⟨rfl, .pipe s left⟩) (hi.climb 0 hleft) hrest
  refine ⟨hthroughout, hends, ?_⟩
  cases hl : t.current? with
  | none => simp [State.atOperator, hl]
  | some l =>
    have hop : BinaryOp.ofLexeme? l = none := by
      refine Option.eq_none_iff_forall_ne_some.2 fun op hop => ?_
      have hnone := hbinary l hl
      simp [operatorFrom, hop] at hnone
    simp [State.atOperator, hl, hop, hpipe l hl]

end Operators

/-- At all levels, what goes on with an expression is taken. -/
theorem extends_enter (limit room : Nat) :
    Extends (enter limit room) ∧ ∀ e, Brings Node.Reaching (enter limit room e) := by
  induction room with
  | zero =>
    refine ⟨⟨fun h => ?_, fun h => ?_⟩, fun e => ⟨fun h => ?_⟩⟩
    all_goals cases h
  | succ room ih =>
    obtain ⟨hi, hbrings⟩ := ih
    refine ⟨⟨fun h => (hi.pipe h).2, fun h => (hi.unary h).2⟩, fun e => ?_⟩
    cases e with
    | expression => exact ⟨fun h => (hi.pipe h).1⟩
    | operand => exact ⟨fun h => (hi.unary h).1⟩
    | alternative => exact inferInstanceAs (Brings Node.Reaching (conditional (enter limit room)))
    | block => exact inferInstanceAs (Brings Node.Reaching (itemBlock (enter limit room)))
    | pattern => exact inferInstanceAs (Brings Node.Reaching (pattern (enter limit room)))

end Grammar

open Grammar

/-- In all trees that texts are read as, with diagnostics or without, a lambda is never the left
operand of a pipe or of a binary operator, and a member access, an index or a call is only written
behind one whose body ends in an emission. -/
theorem parse_reaching (source : String) (limit : Nat) :
    (parse source limit).1.Everywhere Node.Reaching ∧
      ∀ e ∈ (parseExpr source).1, (Node.expr e).Everywhere Node.Reaching := by
  constructor
  · obtain ⟨finish, hread, _⟩ := reads_parse source limit
    have hbrings : ∀ e, Brings Node.Reaching (enter limit limit e) := (extends_enter limit limit).2
    have hprogram : Throughout Node.Reaching (parse source limit).1 := Brings.throughout hread
    exact fun i hi =>
      hprogram.holds (.item i) (List.mem_flatMap.2 ⟨i, hi, List.mem_singleton_self _⟩)
  · intro e he
    obtain ⟨finish, hread, _⟩ := parseExpr_eq_some.1 (Prod.ext he rfl)
    have hexpr : Throughout Node.Reaching e :=
      ((extends_enter _ _).2 .expression).throughout (reads_wholeExpression.1 hread).2.1
    exact hexpr.holds (.expr e) (List.mem_singleton_self _)

def Item.expr? : Item → Option Expr
  | expr e => some e
  | decl _ => none

/-- The arguments behind an emission that a body ends in are taken for those of the lambda. -/
theorem parse_calls_lambda :
    (parse "|x| emit (y)" 8).2 = [] ∧
      (parse "|x| emit (y)" 8).1.items.any (fun i => i.expr?.any fun e =>
        e.base?.any Expr.isLambda) = true := by
  decide +kernel

end ApiScript
