import ApiScript.Lexeme.Scan
import ApiScript.Text.Bytes

set_option autoImplicit false
set_option relaxedAutoImplicit false

/-!
Tokens: the lexemes of a text with their spans. A `Lexer` is what is left of a text to be read; it
can be stepped with `next?` and emptied with `tokenize`.
-/

namespace ApiScript

/-- A lexeme and the span of the text it was read from. -/
structure Token where
  lexeme : Lexeme
  span : Span
  deriving DecidableEq

def Token.text? (source : String) (t : Token) : Option String :=
  (Text.slice? t.span.start t.span.stop source.toList).map String.ofList

/-- The text not read yet, and the offset of its first byte. -/
structure Lexer where
  rest : List Char
  offset : Nat

namespace Lexer

def ofString (source : String) (offset : Nat) : Lexer := ⟨source.toList, offset⟩

/-- What the scan behind the blanks finds, where, and what is left; nothing when there are only
blanks. -/
def scan? (l : Lexer) : Option (Except LexicalFault Lexeme × Span × Lexer) :=
  match l.rest.dropWhile Lexeme.isBlank with
  | [] => none
  | c :: cs =>
    let start := l.offset + Text.byteSize (l.rest.takeWhile Lexeme.isBlank)
    let (found, n) := Lexeme.scan c cs
    let stop := start + Text.byteSize ((c :: cs).take n)
    some (found, ⟨start, stop⟩, ⟨(c :: cs).drop n, stop⟩)

/-- Reads the next token, or the error in its place. -/
def next? (l : Lexer) : Option (Except LexicalError Token × Lexer) :=
  match l.scan? with
  | none => none
  | some (.ok lexeme, span, rest) => some (.ok ⟨lexeme, span⟩, rest)
  | some (.error fault, span, rest) => some (.error ⟨fault, span⟩, rest)

/-- The tokens and errors of at most `bound` steps; an error leaves an invalid token in its
place. -/
def steps : Nat → Lexer → List Token × List LexicalError
  | 0, _ => ([], [])
  | bound + 1, l =>
    match l.scan? with
    | none => ([], [])
    | some (.ok lexeme, span, rest) =>
      let (tokens, errors) := steps bound rest
      (⟨lexeme, span⟩ :: tokens, errors)
    | some (.error fault, span, rest) =>
      let (tokens, errors) := steps bound rest
      (⟨.invalid, span⟩ :: tokens, ⟨fault, span⟩ :: errors)

/-- All tokens and errors of the text; a step takes at least one character, so its length bounds
them. -/
def tokenize (l : Lexer) : List Token × List LexicalError := steps l.rest.length l

def tokenizeFiltered (l : Lexer) : List Token × List LexicalError :=
  (l.tokenize.1.filter (!·.lexeme.isTrivia), l.tokenize.2)

/-- The results of `n` calls of `next?`, and the lexer after them. -/
def take : Nat → Lexer → List (Option (Except LexicalError Token)) × Lexer
  | 0, l => ([], l)
  | n + 1, l =>
    match l.next? with
    | none =>
      let (items, rest) := take n l
      (none :: items, rest)
    | some (item, l) =>
      let (items, rest) := take n l
      (some item :: items, rest)

end Lexer

end ApiScript
