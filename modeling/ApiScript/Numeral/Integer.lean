import ApiScript.Lexeme.Fault
import ApiScript.Numeral.Digits

set_option autoImplicit false
set_option relaxedAutoImplicit false

/-!
The values of integers: an optional minus sign, an optional radix mark, an optional plus sign, and
digits, within 64 bits.
-/

namespace ApiScript.Numeral

/-- The radix that a text is marked with, and what follows the mark. -/
def radixMark : List Char → Nat × List Char
  | '0' :: 'x' :: cs | '0' :: 'X' :: cs => (16, cs)
  | '0' :: 'o' :: cs | '0' :: 'O' :: cs => (8, cs)
  | '0' :: 'b' :: cs | '0' :: 'B' :: cs => (2, cs)
  | cs => (10, cs)

def dropPlus : List Char → List Char
  | '+' :: cs => cs
  | cs => cs

/-- The value of an integer without a minus sign. -/
def magnitude? (cs : List Char) : Option Nat :=
  let (radix, digits) := radixMark cs
  digits? radix (dropPlus digits)

def integer? : List Char → Option Int
  | '-' :: cs => (magnitude? cs).map (-Int.ofNat ·)
  | cs => (magnitude? cs).map Int.ofNat

/-- The value of an integer that fits 64 bits with a sign. -/
def integer (raw : String) (span : Span) : Except LexicalError Int :=
  match (integer? raw.toList).filter fun v => -0x8000000000000000 ≤ v ∧ v < 0x8000000000000000 with
  | some v => .ok v
  | none => .error ⟨.invalidNumber .integer raw .outOfRange, span⟩

end ApiScript.Numeral
