import ApiScript.Lexeme.Fault
import ApiScript.Lexeme.Number
import ApiScript.Numeral.Digits

set_option autoImplicit false
set_option relaxedAutoImplicit false

/-!
Escape sequences: a backslash and one to nine characters behind it that stand for a character or a
byte.
-/

namespace ApiScript.Quoted

inductive Escaped
  | char (char : Char)
  | byte (byte : UInt8)
  deriving DecidableEq

/-- The character in a text; a byte counts as the character of that number. -/
def Escaped.toChar : Escaped → Char
  | char c => c
  | byte b => Char.ofNat b.toNat

def Escaped.toBytes : Escaped → List UInt8
  | char c => String.utf8EncodeChar c
  | byte b => [b]

def letter? : Char → Option Char
  | '\\' => some '\\'
  | '\'' => some '\''
  | '"' => some '"'
  | 'n' => some '\n'
  | 'r' => some '\r'
  | 't' => some '\t'
  | 'b' => some '\x08'
  | 'f' => some '\x0c'
  | 'v' => some '\x0b'
  | '0' => some '\x00'
  | _ => none

def scalar? (n : Nat) : Option Char := if n.isValidChar then some (Char.ofNat n) else none

/-- The character that hexadecimal digits name; the sequence covers `extent` characters. -/
def hexChar (digits : List Char) (extent : Nat) : Except (EscapeRule × Nat) (Escaped × Nat) :=
  match (Numeral.digits? 16 digits).bind scalar? with
  | some c => .ok (.char c, extent)
  | none => .error (.scalarValue, extent)

/-- Reads the text behind a backslash: what the sequence stands for, or what it lacks, each with the
number of characters covered. -/
def escape : List Char → Except (EscapeRule × Nat) (Escaped × Nat)
  | [] => .error (.letter, 0)
  | 'x' :: cs =>
    let digits := Lexeme.runLength Lexeme.isHexDigit (cs.take 2)
    if digits < 2 then .error (.twoHexDigits, digits + 1)
    else .ok (.byte (UInt8.ofNat ((Numeral.digits? 16 (cs.take 2)).getD 0)), 3)
  | 'u' :: '{' :: cs =>
    let digits := Lexeme.runLength Lexeme.isHexDigit cs
    let closed := (cs.drop digits).head? = some '}'
    if digits = 0 ∨ 6 < digits ∨ ¬closed then
      .error (.bracedHexDigits, digits + (if closed then 3 else 2))
    else hexChar (cs.take digits) (digits + 3)
  | 'u' :: cs =>
    let digits := Lexeme.runLength Lexeme.isHexDigit (cs.take 4)
    if digits < 4 then .error (.fourHexDigits, digits + 1)
    else hexChar (cs.take 4) 5
  | c :: _ =>
    match letter? c with
    | some decoded => .ok (.char decoded, 1)
    | none => .error (.knownLetter, 1)

end ApiScript.Quoted
