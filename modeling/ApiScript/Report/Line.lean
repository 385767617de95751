set_option autoImplicit false
set_option relaxedAutoImplicit false

/-!
The lines of a text as a report shows them: where they break, which characters are blank, and how
many columns a character takes. Offsets count characters.
-/

namespace ApiScript.Report

/-- The characters that end a line; a carriage return and a line feed end one line together. -/
def isBreak (c : Char) : Bool :=
  c == '\n' || c == '\r' || c == '\x0b' || c == '\x0c' || c == '\u0085' || c == '\u2028' ||
    c == '\u2029'

def isBlank (c : Char) : Bool :=
  c == '\t' || isBreak c || c == ' ' || c == '\u00a0' || c == '\u1680' ||
    ('\u2000' ≤ c && c ≤ '\u200a') || c == '\u202f' || c == '\u205f' || c == '\u3000'

def isCombining (c : Char) : Bool := '\u0300' ≤ c && c ≤ '\u036f'

/-- The ranges of characters that take two columns. -/
def wideRanges : List (Nat × Nat) :=
  [(0x1100, 0x115f), (0x2e80, 0x303e), (0x3041, 0xa4cf), (0xac00, 0xd7a3), (0xf900, 0xfaff),
    (0xff00, 0xff60), (0x1f300, 0x1faff)]

def isWide (c : Char) : Bool := wideRanges.any fun (low, high) => low ≤ c.toNat && c.toNat ≤ high

/-- The columns that a character takes, given the number of characters in front of it: a tab leads
to the next multiple of four. -/
def width (column : Nat) (c : Char) : Nat :=
  if c = '\t' then 4 - column % 4
  else if isBlank c then 1
  else if isCombining c then 0
  else if isWide c then 2
  else 1

structure Line where
  start : Nat
  chars : List Char

namespace Line

def stop (l : Line) : Nat := l.start + l.chars.length

def holds (l : Line) (offset : Nat) : Bool := l.start ≤ offset && offset < l.stop

/-- The characters of a line up to the last that is not blank. -/
def visible (l : Line) : List Char := (l.chars.reverse.dropWhile isBlank).reverse

def text (l : Line) : String :=
  String.join <| l.visible.zipIdx.map fun (c, column) =>
    if isBlank c then String.ofList (List.replicate (width column c) ' ') else c.toString

/-- The columns that the character in some place takes; behind the visible ones each takes one. -/
def columns (l : Line) (column : Nat) : Nat := (l.visible[column]?).elim 1 (width column)

end Line

/-- The lines of a text, `read` being the characters of the line so far, last first. -/
def linesFrom (start : Nat) (read : List Char) : List Char → List Line
  | [] => if read.isEmpty then [] else [⟨start, read.reverse⟩]
  | '\r' :: '\n' :: cs =>
    ⟨start, read.reverse ++ ['\r', '\n']⟩ :: linesFrom (start + read.length + 2) [] cs
  | c :: cs =>
    if isBreak c then ⟨start, (c :: read).reverse⟩ :: linesFrom (start + read.length + 1) [] cs
    else linesFrom start (c :: read) cs

/-- The lines of a text; an empty last line is none. -/
def lines (cs : List Char) : List Line := linesFrom 0 [] cs

/-- The number, from zero, of the line that an offset is in; the end of the text is in the last
one. -/
def lineAt? (ls : List Line) (offset : Nat) : Option Nat :=
  match ls.getLast? with
  | none => none
  | some last =>
    if last.stop < offset then none else some ((ls.takeWhile (·.start ≤ offset)).length - 1)

end ApiScript.Report
