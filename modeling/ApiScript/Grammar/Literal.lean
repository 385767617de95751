import ApiScript.Grammar.Parser
import ApiScript.Numeral.Integer
import ApiScript.Quoted.Decode

set_option autoImplicit false
set_option relaxedAutoImplicit false

/-!
Literals: one token each, or a minus sign and the number written against it. Code embedded in a
string is read as a text of its own, and what is wrong with it is reported in the place where it
stands.
-/

namespace ApiScript.Grammar

variable (inner : Inner)

/-- Reads a text that holds one expression and nothing else. -/
def wholeExpression : Parser Expr := do
  if (← get).broken then
    unexpected .expression
  else
    let e ← inner .expression
    if (← get).atEnd then return e else unexpected .endOfExpression

/-- Reads embedded code, found at `offset`. -/
def embedded (source : String) (offset : Nat) : Parser Expr := do
  let start := State.ofString source offset
  if start.atEnd ∧ ¬start.broken then
    modify (·.report start.log)
    throw ⟨.unexpectedToken .embeddedExpression (.symbol .rightBrace),
      ⟨offset - 2, start.area.stop + 1⟩⟩
  else
    match (wholeExpression inner).run start with
    | .ok e finish =>
      modify (·.report finish.log)
      return e
    | .error d finish =>
      modify (·.report finish.log)
      throw d

/-- Reads the code of an interpolated string's segments. -/
def stringParts : List Quoted.Segment → Parser (List StringPart)
  | [] => return []
  | .text text :: segments => do return .text text :: (← stringParts segments)
  | .code source offset :: segments => do
    let e ← embedded inner source offset
    return .code e :: (← stringParts segments)

def decoded {α : Type} (r : Except LexicalError α) : Parser α :=
  match r with
  | .ok value => return value
  | .error e => throw (.ofLexical e)

/-- Reads a string that is no byte string. -/
def string (expected : Expectation) : Parser StringLiteral := do
  let s ← get
  let span := s.currentSpan
  match s.current? with
  | some (.string .interpolated raw) =>
    let parts ← stringParts inner (← decoded (Quoted.split raw span))
    advance
    return ⟨.double, parts, span⟩
  | some (.string .simple raw) =>
    let text ← decoded (Quoted.decodeSimple raw span)
    advance
    return ⟨.single, if text.isEmpty then [] else [.text text], span⟩
  | _ => unexpected expected

def literal : Parser Literal := do
  let start ← get
  let sign := if start.atNegativeNumber then "-" else ""
  if start.atNegativeNumber then advance
  let s ← get
  let span := start.currentSpan.merge s.currentSpan
  match s.current? with
  | some (.number .integer raw) =>
    let value ← decoded (Numeral.integer (sign ++ raw) span)
    advance
    return .integer span (sign ++ raw) value
  | some (.number .float raw) =>
    let value ← decoded (Numeral.float (sign ++ raw) span)
    advance
    return .float span (sign ++ raw) value
  | some (.number .duration raw) =>
    let (value, unit) ← decoded (Numeral.duration raw span)
    advance
    return .duration span raw value unit
  | some (.number .size raw) =>
    let (value, unit) ← decoded (Numeral.size raw span)
    advance
    return .size span raw value unit
  | some (.string .bytes raw) =>
    let value ← decoded (Quoted.decodeBytes raw span)
    advance
    return .bytes span value
  | some (.string _ _) => return .string (← string inner .literal)
  | some (.keyword .true_) =>
    advance
    return .bool span true
  | some (.keyword .false_) =>
    advance
    return .bool span false
  | some (.keyword .null) =>
    advance
    return .null span
  | _ => unexpected .literal

end ApiScript.Grammar
