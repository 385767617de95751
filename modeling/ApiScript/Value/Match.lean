import ApiScript.Value.Basic

set_option autoImplicit false
set_option relaxedAutoImplicit false

/-!
Matching: which values a pattern takes, and which arm of a match handles a value.
-/

namespace ApiScript

def Literal.bound? (l : Literal) : Option Binary64 := (Value.ofLiteral? l).bind Value.number?

mutual

def Pattern.matches : Pattern → Value → Bool
  | .name _, _ => true
  | .wildcard _, _ => true
  | .literal l, v => (Value.ofLiteral? l).any (·.equivalent v)
  | .array _ elements, .array vs => Pattern.matchesAll elements vs
  | .array _ _, _ => false
  | .object _ fields, .object entries => Pattern.matchesFields fields entries
  | .object _ _, _ => false
  | .range _ start stop inclusive, v =>
    match v.number? with
    | none => false
    | some n =>
      start.all (fun l => l.bound?.any (·.le n)) &&
        stop.all (fun l => l.bound?.any fun bound => if inclusive then n.le bound else n.lt bound)

/-- Whether there are as many values as patterns, each matched by its own. -/
def Pattern.matchesAll : List Pattern → List Value → Bool
  | [], [] => true
  | p :: ps, v :: vs => p.matches v && Pattern.matchesAll ps vs
  | _, _ => false

/-- Whether each key has an entry, and the first one is matched by the key's pattern if it has
one. -/
def Pattern.matchesFields : List FieldPattern → List (String × Value) → Bool
  | [], _ => true
  | ⟨key, pattern, _⟩ :: fields, entries =>
    (match entries.lookup key.text with
      | none => false
      | some v =>
        match pattern with
        | none => true
        | some p => p.matches v) &&
      Pattern.matchesFields fields entries

end

/-- The position of the first arm whose pattern takes the value and whose guard, if it has one,
holds. A guard is asked only where the pattern has taken the value, and each answer may change the
state. -/
def Arm.select? {State : Type} (guard : Expr → StateM State Bool) (v : Value) :
    List Arm → StateM State (Option Nat)
  | [] => return none
  | arm :: arms => do
    let holds ←
      if arm.pattern.matches v then
        match arm.guard with
        | none => pure true
        | some g => guard g
      else pure false
    if holds then return some 0 else return (← select? guard v arms).map (· + 1)

def Choice.select? {State : Type} (c : Choice) (v : Value) (guard : Expr → StateM State Bool) :
    StateM State (Option Nat) :=
  Arm.select? guard v c.arms

end ApiScript
