import ApiScript.Grammar.Recovery
import ApiScript.Tree.Basic

set_option autoImplicit false
set_option relaxedAutoImplicit false

/-!
Parsers: computations over the state of reading that answer with a value or a diagnostic. What was
read and reported before a failure stays read and reported.
-/

namespace ApiScript.Grammar

abbrev Parser (α : Type) := EStateM Diagnostic State α

def ask {α : Type} (question : State → α) : Parser α := question <$> get

def advance : Parser Unit := modify State.advance

/-- Fails at the next token, which is not the expected one. -/
def unexpected {α : Type} (expected : Expectation) : Parser α :=
  do throw ((← get).unexpected expected)

/-- Runs a parser that may fail and answers with its outcome. -/
def outcome {α : Type} (p : Parser α) : Parser (Except Diagnostic α) := fun s =>
  match p s with
  | .ok a s => .ok (.ok a) s
  | .error d s => .ok (.error d) s

def expect (l : Lexeme) : Parser Span := do
  let s ← get
  if s.sees l then
    advance
    return s.currentSpan
  else
    unexpected (.lexeme l)

/-- Reads the lexeme if it is next, and tells whether it was. -/
def accept (l : Lexeme) : Parser Bool := do
  if (← get).sees l then
    advance
    return true
  else
    return false

def name (expected : Expectation) : Parser Name := do
  let s ← get
  match s.current? with
  | some (.identifier text) =>
    advance
    return ⟨text, s.currentSpan⟩
  | _ => unexpected expected

/-- Reads the closer of a delimiter opened at `opener`; `list` tells whether an item could follow
instead. -/
def close (delimiter : Delimiter) (list : Bool) (opener : Span) : Parser Span := do
  let s ← get
  if s.sees delimiter.closer then
    advance
    return s.currentSpan
  else
    throw ⟨.unclosed delimiter list s.current? opener, s.currentSpan⟩

/-- Requires an expression to begin at the next token. -/
def operand (operator : Lexeme) : Parser Unit := do
  let s ← get
  if s.atExpressionStart then
    return ()
  else
    throw ⟨.missingOperand operator s.current?, s.currentSpan⟩

/-- Repeats a step on its own answer, until it has none or `bound` steps are done. -/
def repeatWithin {α : Type} (step : α → Parser (Option α)) : Nat → α → Parser α
  | 0, a => return a
  | bound + 1, a => do
    match ← step a with
    | none => return a
    | some b => repeatWithin step bound b

/-- Repeats a step until it has no answer. A step with an answer reads a token, so that there are no
more of them than tokens ahead. -/
def repeated {α : Type} (step : α → Parser (Option α)) (a : α) : Parser α := do
  repeatWithin step ((← get).after.length + 1) a

/-- The answers of a step that is repeated until it has none, behind the given ones. -/
def collect {α : Type} (step : Parser (Option α)) (first : List α) : Parser (List α) :=
  repeated (fun items => do return (← step).map (items ++ [·])) first

/-- Reads items with commas between them and the closer, the opener having been read. A comma may
stand in front of the closer where `trailing` says so. -/
def delimited {α : Type} (delimiter : Delimiter) (trailing : Bool) (opener : Span)
    (item : Parser α) :
    Parser (List α × Span) := do
  let items ← if (← get).sees delimiter.closer then pure [] else do
    collect (do
      if ← accept (.symbol .comma) then
        if trailing ∧ (← get).sees delimiter.closer then return none
        return some (← item)
      else
        return none) [← item]
  let closer ← close delimiter true opener
  return (items, closer)

/-- Reads statements until `atEnd` holds. A statement that fails is reported, and reading resumes
behind it as its surroundings allow. -/
def statements {α : Type} (surroundings : Surroundings) (atEnd : State → Bool)
    (statement : Parser α) :
    Parser (List α) :=
  repeated (fun items => do
    let s ← get
    if atEnd s then return none
    match ← outcome statement with
    | .ok item => return some (items ++ [item])
    | .error d =>
      modify fun t => (t.report [d]).recover surroundings s.before.length
      return some items) []

/-- The kinds of nodes that are one level deeper than the node they are part of. -/
inductive Entry
  | expression | operand | alternative | block | pattern
  deriving DecidableEq

abbrev Entry.Node : Entry → Type
  | expression => Expr
  | operand => Expr
  | alternative => Conditional
  | block => Block
  | pattern => Pattern

/-- Parsers of all nodes that are one level deeper. -/
abbrev Inner := (e : Entry) → Parser e.Node

end ApiScript.Grammar
