set_option autoImplicit false
set_option relaxedAutoImplicit false

/-!
Delimited text: strings, comments and the code embedded in strings. One scan finds the closer of a
text whose opener has been read, over every delimited text inside it.
-/

namespace ApiScript

/-- A delimited text that is open. -/
inductive Enclosure
  /-- Between double quotes, where a dollar sign and a brace open code. -/
  | text
  /-- Between two quotes of the given kind, where nothing nests. -/
  | quoted (quote : Char)
  /-- Between the braces of embedded code, with the number of open braces in it. -/
  | code (opened : Nat)
  | lineComment
  | blockComment
  deriving DecidableEq

namespace Enclosure

/-- The number of characters up to the end of the closer that ends all of the enclosures, innermost
first. -/
def closing? : List Enclosure → List Char → Option Nat
  | [], _ => some 0
  | _ :: _, [] => none
  | .text :: outer, c :: cs =>
    match c, cs with
    | '\\', _ :: r => (closing? (.text :: outer) r).map (· + 2)
    | '\\', [] => none
    | '"', r => (closing? outer r).map (· + 1)
    | '$', '{' :: r => (closing? (.code 0 :: .text :: outer) r).map (· + 2)
    | _, r => (closing? (.text :: outer) r).map (· + 1)
  | .quoted quote :: outer, c :: cs =>
    match c, cs with
    | '\\', _ :: r => (closing? (.quoted quote :: outer) r).map (· + 2)
    | '\\', [] => none
    | c, r => (closing? (if c = quote then outer else .quoted quote :: outer) r).map (· + 1)
  | .code opened :: outer, c :: cs =>
    match c, cs with
    | '{', r => (closing? (.code (opened + 1) :: outer) r).map (· + 1)
    | '}', r => (closing? (if opened = 0 then outer else .code (opened - 1) :: outer) r).map (· + 1)
    | '"', r => (closing? (.text :: .code opened :: outer) r).map (· + 1)
    | '\'', r => (closing? (.quoted '\'' :: .code opened :: outer) r).map (· + 1)
    | '/', '/' :: r => (closing? (.lineComment :: .code opened :: outer) r).map (· + 2)
    | '/', '*' :: r => (closing? (.blockComment :: .code opened :: outer) r).map (· + 2)
    | _, r => (closing? (.code opened :: outer) r).map (· + 1)
  | .lineComment :: outer, c :: cs =>
    (closing? (if c = '\n' then outer else .lineComment :: outer) cs).map (· + 1)
  | .blockComment :: outer, c :: cs =>
    match c, cs with
    | '*', '/' :: r => (closing? outer r).map (· + 2)
    | _, r => (closing? (.blockComment :: outer) r).map (· + 1)

end Enclosure

end ApiScript
