import ApiScript.Report.Mark

set_option autoImplicit false
set_option relaxedAutoImplicit false

/-!
The margin of a report: line numbers, a rule, and for each crossing mark a column in which its
extent is drawn, with one more column for arrow heads.
-/

namespace ApiScript.Report

/-- The rows of a report; those below a line belong to its contacts in order. -/
inductive Row
  /-- The text of a line, with its number. -/
  | line (number : Nat)
  /-- The lines left out of a crossing mark. -/
  | gap
  /-- The bars from the marks down to the arrows. -/
  | bars (contact : Nat)
  /-- The arrow from a mark to its message. -/
  | arrow (contact : Nat)
  deriving DecidableEq

namespace Row

def isText : Row → Bool
  | line _ | gap => true
  | bars _ | arrow _ => false

def contact? : Row → Option Nat
  | line _ | gap => none
  | bars n | arrow n => some n

end Row

/-- What surrounds a row: its line, the contacts below it, and the one drawn in the margin. -/
structure Setting where
  line : Line
  contacts : List Contact
  leading : Option Contact

structure Strokes where
  /-- A corner, and whether it opens a mark rather than closes it. -/
  corner : Option Bool
  across : Bool
  down : Bool
  /-- The line of an arrow head, and whether it opens a mark rather than closes it. -/
  head : Option Bool

/-- Adds the strokes of one crossing mark to those of a cell; `own` tells whether the cell is in the
mark's own column rather than to the right of it. -/
def Strokes.add (setting : Setting) (row : Row) (strokes : Strokes) (mark : Mark) (own : Bool) :
    Strokes :=
  let line := setting.line
  if line.stop < mark.range.start ∨ mark.range.stop ≤ line.start then strokes
  else
    let starts := line.holds mark.range.start
    let ends := line.holds mark.last
    let leads := setting.leading.any (·.mark == mark)
    let lowered := { strokes with down := strokes.down || own }
    if leads ∧ row.isText then { strokes with head := some starts }
    else if ¬starts ∧ (¬ends ∨ row.isText) then lowered
    else
      let place := (setting.contacts.findIdx? (·.mark == mark)).getD 0
      match row.contact? with
      | none => strokes
      | some n =>
        if n = place then
          let strokes := if leads then { strokes with down := own } else strokes
          if leads ∧ starts then strokes
          else if row = .arrow n then
            { strokes with across := true, corner := if own then some starts else strokes.corner }
          else if starts then strokes
          else { strokes with down := strokes.down || own }
        else if starts = decide (place ≤ n) then lowered
        else strokes

/-- The text of a cell; `place` is its column among those of the crossing marks. -/
def Strokes.text (strokes : Strokes) (setting : Setting) (row : Row) (crossing : List Mark)
    (place : Nat) : String :=
  match strokes.corner with
  | some opens => (if opens then "╭" else "╰") ++ "─"
  | none =>
    if strokes.across then "──"
    else if strokes.down then (if row = .gap then "┆" else "│") ++ " "
    else match strokes.head with
      | none => "  "
      | some opens =>
        if place = crossing.length then "▶ "
        else if crossing[place]? = setting.leading.map (·.mark) then
          (if opens then "╭" else "├") ++ "─"
        else "──"

def cell (setting : Setting) (row : Row) (crossing : List Mark) (place : Nat) : String :=
  let strokes := (crossing.take (place + 1)).zipIdx.foldl
    (fun strokes (mark, i) => Strokes.add setting row strokes mark (i == place))
    ⟨none, false, false, none⟩
  strokes.text setting row crossing place

def spaces (n : Nat) : String := String.ofList (List.replicate n ' ')

/-- The margin without the columns of marks; `digits` is the room for numbers. -/
def bareMargin (digits : Nat) (row : Row) : String :=
  match row with
  | .line number => " " ++ spaces (digits - (toString number).length) ++ toString number ++ " │ "
  | .gap => spaces (digits + 2) ++ "┆ "
  | .bars _ | .arrow _ => spaces (digits + 2) ++ "│ "

def margin (digits : Nat) (crossing : List Mark) (setting : Setting) (row : Row) : String :=
  bareMargin digits row ++
    if crossing.isEmpty then ""
    else String.join ((List.range (crossing.length + 1)).map (cell setting row crossing))

end ApiScript.Report
