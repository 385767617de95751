import ApiScript.Report.Margin

set_option autoImplicit false
set_option relaxedAutoImplicit false

/-!
Reports: a diagnostic with the lines of the text it is about, its marks drawn under them. The byte
offsets of spans are taken for character offsets, so a mark behind characters of several bytes is
displaced, or left out where the text is too short for it.
-/

namespace ApiScript

namespace Report

/-- The lines of a text and the marks in it, with the room for line numbers. -/
structure Page where
  lines : List Line
  marks : List Mark
  digits : Nat

namespace Page

def within (p : Page) : List Mark := p.marks.filter (!·.crossing)

/-- The marks that cross lines, longest first. -/
def crossing (p : Page) : List Mark :=
  (p.marks.filter (·.crossing)).mergeSort fun a b => b.range.length ≤ a.range.length

def setting (p : Page) (line : Line) : Setting :=
  ⟨line, Contact.below line p.crossing p.within, Contact.leading? line p.crossing⟩

end Page

def underlined (setting : Setting) (column : Nat) : Bool :=
  setting.contacts.any fun c =>
    !c.mark.crossing && c.mark.range.start ≤ setting.line.start + column &&
      setting.line.start + column < c.mark.range.stop

/-- Whether a contact is drawn below its line only, and not in the margin. -/
def isFree (setting : Setting) (c : Contact) : Bool := setting.leading.all (·.mark != c.mark)

/-- The contact whose bar passes a column in the rows of the `n`-th contact. -/
def bar? (setting : Setting) (n column : Nat) : Option Contact :=
  (setting.contacts.drop n).find? fun c => isFree setting c && c.column == column

def extent (setting : Setting) : Nat :=
  setting.contacts.foldl (fun n c =>
    if c.mark.crossing then setting.line.chars.length else
      max n (c.mark.range.stop - setting.line.start)) 0 + 2

/-- A stroke, and what fills the rest of a character of several columns. -/
abbrev Stroke := Char × Char

def draw (setting : Setting) (stroke : Nat → Stroke) : String :=
  String.join <| (List.range (extent setting)).map fun column =>
    let columns := setting.line.columns column
    if columns = 0 then ""
    else String.ofList ((stroke column).1 :: List.replicate (columns - 1) (stroke column).2)

/-- The stroke of a column in the bars of the `n`-th contact. -/
def barStroke (setting : Setting) (n column : Nat) : Stroke :=
  let under := n == 0 && underlined setting column
  match bar? setting n column with
  | some c =>
    if under then ('┬', '─')
    else if c.mark.crossing ∧ n = 0 then ('▲', ' ')
    else ('│', ' ')
  | none => if under then ('─', '─') else (' ', ' ')

/-- The stroke of a column in the arrow of the `n`-th contact, which is `c`. -/
def arrowStroke (setting : Setting) (n : Nat) (c : Contact) (column : Nat) : Stroke :=
  let across :=
    decide (c.column < column) != c.mark.crossing || (c.final && decide (c.column < column))
  if column = c.column ∧ isFree setting c then
    (if c.mark.crossing then (if c.final then '┴' else '╯') else '╰', '─')
  else if across then ('─', '─')
  else if (bar? setting n column).isSome then ('│', ' ')
  else (' ', ' ')

namespace Page

def contactRows (p : Page) (setting : Setting) (c : Contact) (n : Nat) : List String :=
  [margin p.digits p.crossing setting (.bars n) ++ draw setting (barStroke setting n),
    margin p.digits p.crossing setting (.arrow n) ++ draw setting (arrowStroke setting n c) ++
      if c.final then " " ++ c.mark.message else ""]

/-- The rows of lines from the one of the given number on. Of neighbouring lines that no mark
touches only one row is shown, as a gap within a crossing mark, and bare elsewhere; `skipping` tells
that it has been. -/
def rows (p : Page) (skipping : Bool) (number : Nat) : List Line → List String
  | [] => []
  | line :: ls =>
    let setting := p.setting line
    if setting.contacts.isEmpty ∧ setting.leading.isNone then
      let shown :=
        if skipping then []
        else if p.crossing.any fun m => m.range.start ≤ line.start && line.start < m.range.stop then
          [margin p.digits p.crossing setting .gap]
        else [bareMargin p.digits (.bars 0)]
      shown ++ rows p true (number + 1) ls
    else
      (margin p.digits p.crossing setting (.line number) ++ line.text) ::
        (setting.contacts.zipIdx.flatMap fun (c, n) => p.contactRows setting c n) ++
        rows p false (number + 1) ls

def helpRows (p : Page) (help : String) : List String :=
  match p.lines with
  | [] => []
  | line :: _ =>
    let lead := margin p.digits p.crossing ⟨line, [], none⟩ (.bars 0)
    [lead, lead ++ "Help: " ++ help]

end Page

/-- The line and the column of an offset, from one. -/
def position (ls : List Line) (offset : Nat) : String :=
  match lineAt? ls offset with
  | none => "?:?"
  | some n =>
    toString (n + 1) ++ ":" ++ toString (offset - ((ls[n]?).map (·.start)).getD 0 + 1)

/-- The rows below the headline of a report with at least one mark, which gives the position
`offset`. -/
def body (filename : String) (ls : List Line) (marks : List Mark) (offset : Nat)
    (help? : Option String) :
    List String :=
  let low := (marks.map (·.range.start)).min?.getD 0
  let high := (marks.map (·.range.stop)).max?.getD 0
  let first := (lineAt? ls low).getD 0
  let stop := ((lineAt? ls (max (high - 1) low)).map (· + 1)).getD ls.length
  let page : Page := ⟨ls, marks, (toString stop).length⟩
  [spaces (page.digits + 2) ++ "╭─[" ++ filename ++ ":" ++ position ls offset ++ "]",
    spaces (page.digits + 2) ++ "│"] ++
    page.rows false (first + 1) ((ls.take stop).drop first) ++
    help?.elim [] page.helpRows ++
    [String.ofList (List.replicate (page.digits + 2) '─') ++ "╯"]

/-- The spans that a diagnostic points at, each with a message, its own first. -/
def pointers (d : Diagnostic) : List (Span × String) :=
  (d.span, d.problem.label) ::
    match d.problem with
    | .unclosed delimiter _ _ opener => [(opener, delimiter.describe ++ " opened here")]
    | _ => []

end Report

open Report

/-- The report of a diagnostic about a text, line by line. There is none where a span without extent
is within a character. -/
def Diagnostic.render? (filename source : String) (d : Diagnostic) : Option String := do
  let ls := lines source.toList
  let ranges ← (pointers d).mapM fun (span, message) => do
    return (← marked? source.toList span, message)
  let marks := ranges.filterMap fun (range, message) => Mark.of? ls range message
  let offset := (ranges.head?.map (·.1.start)).getD 0
  let rows := ("[" ++ d.problem.code ++ "] Error: " ++ d.message) ::
    if marks.isEmpty then [] else body filename ls marks offset d.problem.help?
  return String.join (rows.map (· ++ "\n"))

/-- The reports of all diagnostics, with an empty line between them. -/
def Diagnostic.renderAll? (filename source : String) (ds : List Diagnostic) : Option String :=
  (ds.mapM (render? filename source)).map ("\n".intercalate ·)

end ApiScript
