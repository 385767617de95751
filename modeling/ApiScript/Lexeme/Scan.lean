import ApiScript.Lexeme.Delimited
import ApiScript.Lexeme.Fault
import ApiScript.Lexeme.Number

set_option autoImplicit false
set_option relaxedAutoImplicit false

/-!
The lexeme at the head of a text: the longest text there that any lexeme is written as, and a
keyword rather than an identifier.
-/

namespace ApiScript.Lexeme

def isBlank (c : Char) : Bool := c == ' ' || c == '\t' || c == '\r' || c == '\n' || c == '\x0c'

def isWordStart (c : Char) : Bool := c.isAlpha || c == '_'

def isWordPart (c : Char) : Bool := c.isAlphanum || c == '_'

def ofWord (word : String) : Lexeme :=
  match Keyword.ofSpelling? word with
  | some k => .keyword k
  | none => .identifier word

def symbol? (cs : List Char) : Option Symbol :=
  Symbol.byLength.find? (·.spelling.toList.isPrefixOf cs)

/-- A delimited lexeme with an opener of the given length; without a closer, all of the text is at
fault. -/
def scanDelimited (make : String → Lexeme) (fault : LexicalFault) (enclosure : Enclosure)
    (opener : Nat) (cs : List Char) : Except LexicalFault Lexeme × Nat :=
  match Enclosure.closing? [enclosure] (cs.drop opener) with
  | some n => (.ok (make (String.ofList (cs.take (opener + n)))), opener + n)
  | none => (.error fault, cs.length)

/-- The lexeme at the head of `c :: cs` and the number of characters it covers. A fault covers one
character, or all of them where a string or a comment is not closed. -/
def scan (c : Char) (cs : List Char) : Except LexicalFault Lexeme × Nat :=
  let text := c :: cs
  if c.isDigit then
    let (kind, n) := numberLength text
    (.ok (.number kind (String.ofList (text.take n))), n)
  else if c = '"' then
    scanDelimited (.string .interpolated) (.unterminatedString '"') .text 1 text
  else if c = '\'' then
    scanDelimited (.string .simple) (.unterminatedString '\'') (.quoted '\'') 1 text
  else if c = 'b' ∧ cs.head? = some '"' then
    scanDelimited (.string .bytes) (.unterminatedString '"') (.quoted '"') 2 text
  else if isWordStart c then
    let word := text.takeWhile isWordPart
    (.ok (ofWord (String.ofList word)), word.length)
  else if c = '/' ∧ cs.head? = some '/' then
    let line := text.takeWhile (· != '\n')
    (.ok (.comment .line (String.ofList line)), line.length)
  else if c = '/' ∧ cs.head? = some '*' then
    scanDelimited (.comment .block) .unterminatedComment .blockComment 2 text
  else
    match symbol? text with
    | some s => (.ok (.symbol s), s.spelling.length)
    | none => (.error (.unexpectedCharacter c), 1)

end ApiScript.Lexeme
