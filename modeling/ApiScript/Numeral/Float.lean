import ApiScript.Binary64
import ApiScript.Lexeme.Fault
import ApiScript.Numeral.Digits

set_option autoImplicit false
set_option relaxedAutoImplicit false

/-!
The values of floats: a decimal with an optional point and exponent, rounded once to the nearest
double, or the name of an infinity or of no number. A sign may stand in front.
-/

namespace ApiScript.Numeral

/-- The value of an exponent, zero where there is none. -/
def exponent? : List Char → Option Int
  | [] => some 0
  | 'e' :: cs | 'E' :: cs =>
    match cs with
    | '-' :: ds => (digits? 10 ds).map (-Int.ofNat ·)
    | '+' :: ds => (digits? 10 ds).map Int.ofNat
    | ds => (digits? 10 ds).map Int.ofNat
  | _ => none

/-- The digits behind a point, and what follows them. -/
def fraction : List Char → List Char × List Char
  | '.' :: cs => (cs.takeWhile Char.isDigit, cs.dropWhile Char.isDigit)
  | cs => ([], cs)

/-- A decimal as a whole number and the power of ten that it counts. -/
def decimal? (cs : List Char) : Option (Nat × Int) := do
  let (behind, rest) := fraction (cs.dropWhile Char.isDigit)
  let value ← digits? 10 (cs.takeWhile Char.isDigit ++ behind)
  let exponent ← exponent? rest
  return (value, exponent - behind.length)

/-- The value of a float without a sign, which is given apart. -/
def unsignedFloat? (negative : Bool) (cs : List Char) : Option Binary64 :=
  let word := String.ofList (cs.map Char.toLower)
  if word = "inf" ∨ word = "infinity" then some (.infinity negative)
  else if word = "nan" then some .nan
  else (decimal? cs).map fun (value, exponent) => .ofDecimal negative value exponent

def float? : List Char → Option Binary64
  | '-' :: cs => unsignedFloat? true cs
  | '+' :: cs => unsignedFloat? false cs
  | cs => unsignedFloat? false cs

def float (raw : String) (span : Span) : Except LexicalError Binary64 :=
  match float? raw.toList with
  | some v => .ok v
  | none => .error
    ⟨.invalidNumber .float raw (if raw = "" then .emptyFloat else .malformedFloat), span⟩

end ApiScript.Numeral
