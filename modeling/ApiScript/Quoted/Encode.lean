import ApiScript.Lexeme.Basic

set_option autoImplicit false
set_option relaxedAutoImplicit false

/-!
Written forms of texts and bytes between quotes, which the decoding of quoted texts takes back.
-/

namespace ApiScript.Quoted

def hex (n : Nat) : List Char := Nat.toDigits 16 n

def isControl (c : Char) : Bool := c.toNat < 0x20 || (0x7f ≤ c.toNat && c.toNat < 0xa0)

/-- Writes a text between quotes of one kind. A dollar sign is escaped where it would open code. -/
def encode (quote : Quote) : List Char → List Char
  | [] => []
  | c :: cs =>
    let written :=
      if c = '\\' then ['\\', '\\']
      else if c = '\n' then ['\\', 'n']
      else if c = '\r' then ['\\', 'r']
      else if c = '\t' then ['\\', 't']
      else if c = '\x00' then ['\\', '0']
      else if c = quote.char then ['\\', c]
      else if c = '$' ∧ quote = .double ∧ cs.head? = some '{' then ['\\', 'x', '2', '4']
      else if isControl c then ['\\', 'u', '{'] ++ hex c.toNat ++ ['}']
      else [c]
    written ++ encode quote cs

def encodeByte (b : UInt8) : List Char :=
  if b = 0x5c then ['\\', '\\']
  else if b = 0x22 then ['\\', '"']
  else if 0x20 ≤ b ∧ b ≤ 0x7e then [Char.ofNat b.toNat]
  else ['\\', 'x'] ++ (if b < 0x10 then ['0'] else []) ++ hex b.toNat

def bytesLexeme (bs : List UInt8) : Lexeme :=
  .string .bytes (String.ofList (['b', '"'] ++ bs.flatMap encodeByte ++ ['"']))

/-- The lexeme of a string whose body is written already. -/
def lexeme (quote : Quote) (body : List Char) : Lexeme :=
  .string quote.stringClass (String.ofList ([quote.char] ++ body ++ [quote.char]))

end ApiScript.Quoted
