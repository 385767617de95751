import ApiScript.Diagnostic
import ApiScript.Report.Line
import ApiScript.Text.Bytes

set_option autoImplicit false
set_option relaxedAutoImplicit false

/-!
Marks: the ranges of a text that a report points at, and the places where they touch a line.
-/

namespace ApiScript.Report

/-- The range to be marked for a span. An empty one grows by the character behind it, or the last
one at the end of the text. There is none where that would cut a character. -/
def marked? (source : List Char) (span : Span) : Option Span :=
  let size := Text.byteSize source
  let start := min span.start size
  let stop := min span.stop size
  if start < stop then some ⟨start, stop⟩
  else match Text.dropBytes? start source with
    | none => none
    | some (c :: _) => some ⟨start, start + c.utf8Size⟩
    | some [] =>
      match source.getLast? with
      | some c => some ⟨size - c.utf8Size, size⟩
      | none => some ⟨0, 0⟩

/-- A marked range with a message; a crossing one is not within one line. -/
structure Mark where
  range : Span
  message : String
  crossing : Bool
  deriving DecidableEq

namespace Mark

def of? (ls : List Line) (range : Span) (message : String) : Option Mark := do
  let first ← lineAt? ls range.start
  let last ← if range.isEmpty then some first else lineAt? ls (range.stop - 1)
  return ⟨range, message, first != last⟩

def last (m : Mark) : Nat := max (m.range.stop - 1) m.range.start

end Mark

/-- A place where a mark touches a line; the message of the mark is told at the final one. -/
structure Contact where
  column : Nat
  mark : Mark
  final : Bool
  deriving DecidableEq

namespace Contact

/-- Whether a contact comes first: the one further left, or of the mark that starts later. -/
def precedes (a b : Contact) : Bool :=
  a.column < b.column || (a.column == b.column && b.mark.range.start ≤ a.mark.range.start)

def sort (cs : List Contact) : List Contact := cs.mergeSort precedes

def start? (l : Line) (m : Mark) : Option Contact :=
  if l.holds m.range.start then some ⟨m.range.start - l.start, m, false⟩ else none

def finish? (l : Line) (m : Mark) : Option Contact :=
  if l.holds m.last then some ⟨m.last - l.start, m, true⟩ else none

def within? (l : Line) (m : Mark) : Option Contact :=
  if l.start ≤ m.range.start ∧ m.range.stop ≤ l.stop then
    some ⟨max ((m.range.start + m.range.stop) / 2) m.range.start - l.start, m, true⟩
  else none

/-- The contact of a line that is drawn in the margin, of the crossing marks given. -/
def leading? (l : Line) (crossing : List Mark) : Option Contact :=
  (sort (crossing.filterMap fun m => (start? l m).or (finish? l m))).head?

/-- The contacts of a line that are drawn below it. The start of the leading mark is not. -/
def below (l : Line) (crossing within : List Mark) : List Contact :=
  let leading := (leading? l crossing).map (·.mark)
  sort (crossing.filterMap
    (fun m => (if leading = some m then none else start? l m).or (finish? l m)) ++
    within.filterMap (within? l))

end Contact

end ApiScript.Report
