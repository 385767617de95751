import ApiScript.Tree.Node

set_option autoImplicit false
set_option relaxedAutoImplicit false

/-!
The ladder of operators: which expressions may be the operands of which. What binds tighter is
further up, and an operand stands no lower than its operator allows.
-/

namespace ApiScript

/-- The property holds of the node and of all nodes in it. -/
inductive Node.Everywhere (P : Node → Prop) : Node → Prop
  | intro {n : Node} (here : P n) (below : ∀ c ∈ n.children, Everywhere P c) : Everywhere P n

namespace Node.Everywhere

variable {P : Node → Prop} {n : Node}

theorem here (h : n.Everywhere P) : P n := by
  cases h with
  | intro here _ => exact here

theorem children (h : n.Everywhere P) : ∀ c ∈ n.children, c.Everywhere P := by
  cases h with
  | intro _ below => exact below

end Node.Everywhere

def Program.Everywhere (P : Node → Prop) (p : Program) : Prop :=
  ∀ i ∈ p.items, (Node.item i).Everywhere P

namespace Expr

def isPipe : Expr → Bool
  | pipe _ _ _ => true
  | _ => false

def isUnary : Expr → Bool
  | unary _ _ _ => true
  | _ => false

def isEmission : Expr → Bool
  | emit _ _ _ => true
  | _ => false

def operator? : Expr → Option BinaryOp
  | binary _ op _ _ => some op
  | _ => none

/-- Whether a member access, an index or a call may be written right behind the expression. -/
def takesSuffix (e : Expr) : Bool := !e.isPipe && e.operator?.isNone && !e.isUnary && !e.isEmission

/-- The operands of the expression bind tightly enough for its operator: a left operand at least as
tightly as it, since operators of one precedence group to the left, and a right operand more
tightly. -/
def OnLadder : Expr → Prop
  | binary _ op left right =>
    (left.isPipe = false ∧ ∀ below ∈ left.operator?, op.precedence ≤ below.precedence) ∧
      right.isPipe = false ∧ ∀ below ∈ right.operator?, op.precedence < below.precedence
  | pipe _ _ right => right.isPipe = false
  | unary _ _ e => e.isPipe = false ∧ e.operator? = none
  | call _ callee _ => callee.takesSuffix = true
  | member _ e _ | index _ e _ => e.takesSuffix = true
  | _ => True

/-- How tightly the outermost form of an expression binds, on the scale of the precedences. -/
def tightness : Expr → Nat
  | pipe _ _ _ => 1
  | binary _ op _ _ => op.precedence
  | unary _ _ _ | emit _ _ _ => 8
  | _ => 9

end Expr

theorem BinaryOp.precedence_pos (op : BinaryOp) : 2 ≤ op.precedence := by cases op <;> decide

namespace Expr

variable {e : Expr}

theorem isPipe_eq_false (h : 1 < e.tightness) : e.isPipe = false := by
  cases e with
  | pipe => exact absurd h (Nat.lt_irrefl 1)
  | _ => rfl

theorem precedence_of_operator? {op : BinaryOp} (h : op ∈ e.operator?) :
    e.tightness = op.precedence := by
  cases e with
  | binary s op' left right =>
    cases h
    rfl
  | _ => cases h

private theorem operator?_eq_none (h : 8 ≤ e.tightness) : e.operator? = none := by
  cases hop : e.operator? with
  | none => rfl
  | some op =>
    have := op.precedence_lt
    rw [precedence_of_operator? hop] at h
    omega

theorem takesSuffix_iff : e.takesSuffix = true ↔ 9 ≤ e.tightness := by
  cases e with
  | binary s op left right =>
    have := op.precedence_lt
    simp [takesSuffix, isPipe, operator?, tightness]
    omega
  | _ => simp [takesSuffix, isPipe, operator?, isUnary, isEmission, tightness]

theorem onLadder_binary {s : Span} {op : BinaryOp} {left right : Expr}
    (hleft : op.precedence ≤ left.tightness) (hright : op.precedence < right.tightness) :
    (binary s op left right).OnLadder := by
  have := op.precedence_pos
  refine ⟨⟨isPipe_eq_false (by omega), fun below h => ?_⟩, isPipe_eq_false (by omega),
    fun below h => ?_⟩
  · rwa [precedence_of_operator? h] at hleft
  · rwa [precedence_of_operator? h] at hright

theorem onLadder_unary {s : Span} {op : UnaryOp} (h : 8 ≤ e.tightness) : (unary s op e).OnLadder :=
  ⟨isPipe_eq_false (by omega), operator?_eq_none h⟩

end Expr

end ApiScript
