set_option autoImplicit false
set_option relaxedAutoImplicit false

/-!
Digits in any radix up to sixteen, and the value of a run of them.
-/

namespace ApiScript.Numeral

/-- The value of a digit, a letter of either case standing for ten and more. -/
def digit? (radix : Nat) (c : Char) : Option Nat :=
  let value :=
    if c.isDigit then some (c.toNat - '0'.toNat)
    else if 'a' ≤ c ∧ c ≤ 'f' then some (c.toNat - 'a'.toNat + 10)
    else if 'A' ≤ c ∧ c ≤ 'F' then some (c.toNat - 'A'.toNat + 10)
    else none
  value.filter (· < radix)

/-- The value of a text that holds digits only, and at least one. -/
def digits? (radix : Nat) (cs : List Char) : Option Nat :=
  if cs.isEmpty then none
  else cs.foldlM (fun value c => (digit? radix c).map (value * radix + ·)) 0

end ApiScript.Numeral
