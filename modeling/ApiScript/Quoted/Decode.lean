import ApiScript.Lexeme.Delimited
import ApiScript.Quoted.Escape
import ApiScript.Text.Bytes

set_option autoImplicit false
set_option relaxedAutoImplicit false

/-!
The values of quoted texts: the text of a simple string, the bytes of a byte string, and the
segments of an interpolated string.
-/

namespace ApiScript.Quoted

def unquote? (quote : Char) : List Char → Option (List Char)
  | [] => none
  | c :: cs => if c = quote ∧ cs.getLast? = some quote then some cs.dropLast else none

def unterminated (quote : Char) (span : Span) : LexicalError := ⟨.unterminatedString quote, span⟩

/-- Reads the sequence behind a backslash at `offset`, and counts the characters that it covers
there. -/
def sequence (offset : Nat) (cs : List Char) : Except LexicalError (Escaped × Nat) :=
  match escape cs with
  | .error (rule, n) =>
    .error ⟨.invalidEscape (String.ofList ('\\' :: cs.take n)) rule,
      ⟨offset, offset + 1 + Text.byteSize (cs.take n)⟩⟩
  | .ok read => .ok read

/-- The text of the rest of a body, which is found at `offset`, behind the text read so far. -/
@[semireducible]
def unescapeFrom (text : String) (offset : Nat) : List Char → Except LexicalError String
  | [] => .ok text
  | '\\' :: cs => do
    let (escaped, n) ← sequence offset cs
    unescapeFrom (text.push escaped.toChar) (offset + 1 + Text.byteSize (cs.take n)) (cs.drop n)
  | c :: cs => unescapeFrom (text.push c) (offset + c.utf8Size) cs
termination_by cs => cs.length
decreasing_by all_goals grind

/-- The text of a body without embedded code that starts at `offset`. -/
def unescape (body : String) (offset : Nat) : Except LexicalError String :=
  unescapeFrom "" offset body.toList

def decodeSimple (raw : String) (span : Span) : Except LexicalError String :=
  match unquote? '\'' raw.toList with
  | none => .error (unterminated '\'' span)
  | some body => unescape (String.ofList body) (span.start + 1)

/-- The bytes of the rest of a body, which is found at `offset`, behind the bytes read so far. A
character counts with all bytes that encode it. -/
@[semireducible]
def bytesFrom (bytes : List UInt8) (offset : Nat) : List Char → Except LexicalError (List UInt8)
  | [] => .ok bytes
  | '\\' :: cs => do
    let (escaped, n) ← sequence offset cs
    bytesFrom (bytes ++ escaped.toBytes) (offset + 1 + Text.byteSize (cs.take n)) (cs.drop n)
  | c :: cs => bytesFrom (bytes ++ String.utf8EncodeChar c) (offset + c.utf8Size) cs
termination_by cs => cs.length
decreasing_by all_goals grind

def decodeBytes (raw : String) (span : Span) : Except LexicalError (List UInt8) :=
  match raw.toList with
  | 'b' :: quoted =>
    match unquote? '"' quoted with
    | none => .error (unterminated '"' span)
    | some body => bytesFrom [] (span.start + 2) body
  | _ => .error (unterminated '"' span)

/-- A piece of an interpolated string: decoded text, or embedded code with its offset. -/
inductive Segment
  | text (text : String)
  | code (source : String) (offset : Nat)
  deriving DecidableEq

/-- A segment of the text read so far, if there is any. -/
def pending (text : String) : List Segment := if text.isEmpty then [] else [.text text]

/-- The segments of the rest of a body, which is found at `offset`, behind those that are complete
and the text of the next one. The error is that of code that does not end. -/
@[semireducible]
def splitFrom (unclosed : LexicalError) (segments : List Segment) (text : String) (offset : Nat) :
    List Char → Except LexicalError (List Segment)
  | [] => .ok (segments ++ pending text)
  | '\\' :: cs => do
    let (escaped, n) ← sequence offset cs
    splitFrom unclosed segments (text.push escaped.toChar) (offset + 1 + Text.byteSize (cs.take n))
      (cs.drop n)
  | '$' :: '{' :: cs =>
    match Enclosure.closing? [.code 0] cs with
    | none => .error unclosed
    | some n =>
      splitFrom unclosed
        (segments ++ pending text ++ [.code (String.ofList (cs.take (n - 1))) (offset + 2)]) ""
        (offset + 2 + Text.byteSize (cs.take n)) (cs.drop n)
  | c :: cs => splitFrom unclosed segments (text.push c) (offset + c.utf8Size) cs
termination_by cs => cs.length
decreasing_by all_goals grind

def split (raw : String) (span : Span) : Except LexicalError (List Segment) :=
  match unquote? '"' raw.toList with
  | none => .error (unterminated '"' span)
  | some body => splitFrom (unterminated '"' span) [] "" (span.start + 1) body

end ApiScript.Quoted
