import ApiScript.Lexeme.Basic

set_option autoImplicit false
set_option relaxedAutoImplicit false

/-!
Numbers in a text: integers in four radixes, floats, and magnitudes with a unit. Each function
answers with a number of characters.
-/

namespace ApiScript

namespace NumberClass

/-- The units of durations and sizes, a longer suffix before any that begins it. -/
def units : List (String × NumberClass) :=
  [("ms", .duration), ("kb", .size), ("mb", .size), ("gb", .size), ("tb", .size), ("s", .duration),
    ("m", .duration), ("h", .duration)]

def unit? (cs : List Char) : Option (NumberClass × Nat) :=
  (units.find? (·.1.toList.isPrefixOf cs)).map fun (suffix, kind) => (kind, suffix.length)

end NumberClass

namespace Lexeme

def isHexDigit (c : Char) : Bool :=
  c.isDigit || ('a' ≤ c && c ≤ 'f') || ('A' ≤ c && c ≤ 'F')

def isOctalDigit (c : Char) : Bool := '0' ≤ c && c ≤ '7'

def isBinaryDigit (c : Char) : Bool := c == '0' || c == '1'

def radixDigit? : Char → Option (Char → Bool)
  | 'x' | 'X' => some isHexDigit
  | 'o' | 'O' => some isOctalDigit
  | 'b' | 'B' => some isBinaryDigit
  | _ => none

def runLength (digit : Char → Bool) (cs : List Char) : Nat := (cs.takeWhile digit).length

/-- The extent of a zero, a radix letter and at least one digit of that radix. -/
def radixLength? : List Char → Option Nat
  | '0' :: letter :: cs =>
    (radixDigit? letter).bind fun digit =>
      if runLength digit cs = 0 then none else some (runLength digit cs + 2)
  | _ => none

/-- The extent of a point and the digits behind it, zero where a digit does not follow the point. -/
def fractionLength : List Char → Nat
  | '.' :: cs => if runLength Char.isDigit cs = 0 then 0 else runLength Char.isDigit cs + 1
  | _ => 0

def signLength : List Char → Nat
  | '+' :: _ | '-' :: _ => 1
  | _ => 0

/-- The extent of an exponent, zero where its digits are missing. -/
def exponentLength : List Char → Nat
  | 'e' :: cs | 'E' :: cs =>
    let digits := runLength Char.isDigit (cs.drop (signLength cs))
    if digits = 0 then 0 else digits + signLength cs + 1
  | _ => 0

/-- The longest number at the head of a text that begins with a digit. -/
def numberLength (cs : List Char) : NumberClass × Nat :=
  match radixLength? cs with
  | some n => (.integer, n)
  | none =>
    let whole := runLength Char.isDigit cs
    let decimal := whole + fractionLength (cs.drop whole)
    match NumberClass.unit? (cs.drop decimal) with
    | some (kind, n) => (kind, decimal + n)
    | none =>
      let full := decimal + exponentLength (cs.drop decimal)
      (if full = whole then .integer else .float, full)

end Lexeme

end ApiScript
