import ApiScript.Tree.Basic

set_option autoImplicit false
set_option relaxedAutoImplicit false

/-!
Values that a script can write down without computing anything, and the two ways of comparing them.
-/

namespace ApiScript

/-- An object keeps its entries in the order written, repeated keys included. -/
inductive Value
  | null
  | bool (value : Bool)
  | int (value : Int)
  | float (value : Binary64)
  | text (value : String)
  | bytes (value : List UInt8)
  | array (elements : List Value)
  | object (entries : List (String × Value))

namespace Value

def number? : Value → Option Binary64
  | int n => some (.ofInt n)
  | float x => some x
  | _ => none

mutual

/-- Whether values are of one kind and equal, the entries of objects in the same order. -/
def same : Value → Value → Bool
  | null, null => true
  | bool a, bool b => a == b
  | int a, int b => a == b
  | float a, float b => a.eq b
  | text a, text b => a == b
  | bytes a, bytes b => a == b
  | array as, array bs => sameAll as bs
  | object as, object bs => sameEntries as bs
  | _, _ => false

def sameAll : List Value → List Value → Bool
  | [], [] => true
  | a :: as, b :: bs => same a b && sameAll as bs
  | _, _ => false

def sameEntries : List (String × Value) → List (String × Value) → Bool
  | [], [] => true
  | (k, a) :: as, (l, b) :: bs => k == l && same a b && sameEntries as bs
  | _, _ => false

end

mutual

/-- Whether values are equal where an integer and a float are compared as numbers, also within
arrays. -/
def equivalent : Value → Value → Bool
  | int a, int b => a == b
  | array as, array bs => equivalentAll as bs
  | a, b =>
    match a.number?, b.number? with
    | some x, some y => x.eq y
    | _, _ => same a b

def equivalentAll : List Value → List Value → Bool
  | [], [] => true
  | a :: as, b :: bs => equivalent a b && equivalentAll as bs
  | _, _ => false

end

/-- The value of a literal that embeds no code: seconds for a duration, bytes for a size. -/
def ofLiteral? : Literal → Option Value
  | .null _ => some null
  | .bool _ b => some (bool b)
  | .integer _ _ n => some (int n)
  | .float _ _ x => some (float x)
  | .duration _ _ x unit => some (float (x.mul unit.inSeconds))
  | .size _ _ x unit => some (float (x.mul (.ofInt unit.inBytes)))
  | .string s => s.plain?.map text
  | .bytes _ bs => some (bytes bs)

mutual

/-- The value of an expression of literals, arrays, objects and parentheses. -/
def ofExpr? : Expr → Option Value
  | .literal l => ofLiteral? l
  | .paren _ inner => ofExpr? inner
  | .array _ elements => (ofExprs? elements).map array
  | .object ⟨fields, _⟩ => (ofFields? fields).map object
  | _ => none

def ofExprs? : List Expr → Option (List Value)
  | [] => some []
  | e :: es => do return (← ofExpr? e) :: (← ofExprs? es)

def ofFields? : List Field → Option (List (String × Value))
  | [] => some []
  | ⟨key, value, _⟩ :: fields => do return (← key.name?, ← ofExpr? value) :: (← ofFields? fields)

end

end Value

end ApiScript
