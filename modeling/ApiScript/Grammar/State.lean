import ApiScript.Diagnostic
import ApiScript.Token

set_option autoImplicit false
set_option relaxedAutoImplicit false

/-!
The state of reading a script: the tokens behind and ahead, and the diagnostics so far. The
questions that the grammar asks of the next tokens are here too.
-/

namespace ApiScript.Grammar

structure State where
  /-- The span of the text that is read. -/
  area : Span
  /-- Whether a lexical error leaves no later token to be trusted. -/
  broken : Bool
  /-- The tokens read, last first. -/
  before : List Token
  /-- The tokens to be read. -/
  after : List Token
  /-- The diagnostics of what has been read, in order. -/
  log : List Diagnostic

namespace State

/-- The start of a text found at `offset`. Rejected characters are told of by their errors alone. -/
def ofString (source : String) (offset : Nat) : State :=
  let (tokens, errors) := (Lexer.ofString source offset).tokenizeFiltered
  { area := ⟨offset, offset + source.utf8ByteSize⟩
    broken := errors.any (·.isFatal)
    before := []
    after := tokens.filter (·.lexeme != .invalid)
    log := errors.map .ofLexical }

/-- The `n`-th lexeme ahead, counted from zero. -/
def peek? (s : State) (n : Nat) : Option Lexeme := (s.after[n]?).map (·.lexeme)

def current? (s : State) : Option Lexeme := s.peek? 0

def atEnd (s : State) : Bool := s.after.isEmpty

/-- The span of the next token, or the end of the text. -/
def currentSpan (s : State) : Span :=
  match s.after with
  | t :: _ => t.span
  | [] => .point s.area.stop

/-- The span of the last token read, or the start of the text. -/
def previousSpan (s : State) : Span :=
  match s.before with
  | t :: _ => t.span
  | [] => .point s.area.start

def sees (s : State) (l : Lexeme) : Bool := s.current? == some l

def advance (s : State) : State :=
  match s.after with
  | [] => s
  | t :: ts => { s with before := t :: s.before, after := ts }

def report (s : State) (ds : List Diagnostic) : State := { s with log := s.log ++ ds }

def unexpected (s : State) (expected : Expectation) : Diagnostic :=
  match s.current? with
  | none => ⟨.unexpectedEnd expected, .point s.area.stop⟩
  | some found => ⟨.unexpectedToken expected found, s.currentSpan⟩

/-- A minus sign written against a number belongs to the number. -/
def atNegativeNumber (s : State) : Bool :=
  match s.after with
  | minus :: number :: _ =>
    minus.lexeme == .symbol .minus && number.lexeme.isSignable && minus.span.touches number.span
  | _ => false

def atInteger (s : State) : Bool :=
  match s.current?, s.peek? 1 with
  | some (.number .integer _), _ => true
  | some (.symbol .minus), some (.number .integer _) => s.atNegativeNumber
  | _, _ => false

def atLiteral (s : State) : Bool := s.current?.any (·.isLiteral) || s.atNegativeNumber

def atIdentifier (s : State) : Bool :=
  match s.current? with
  | some (.identifier _) => true
  | _ => false

/-- At a string that may embed code or may not, but is no byte string. -/
def atString (s : State) : Bool :=
  match s.current? with
  | some (.string .interpolated _) | some (.string .simple _) => true
  | _ => false

def atRangeMark (s : State) : Bool := s.sees (.symbol .range) || s.sees (.symbol .rangeInclusive)

def atObjectStart (s : State) : Bool :=
  s.sees (.symbol .leftBrace) &&
    (match s.peek? 1 with
      | some (.identifier _) | some (.string .interpolated _) | some (.string .simple _) => true
      | _ => false) &&
    s.peek? 2 == some (.symbol .colon)

/-- At an object, empty or not, where no block may stand. -/
def atOptionalObject (s : State) : Bool :=
  s.atObjectStart || (s.sees (.symbol .leftBrace) && s.peek? 1 == some (.symbol .rightBrace))

def startsExpression : Lexeme → Bool
  | .number _ _ | .string _ _ | .identifier _ => true
  | .keyword k =>
    match k with
    | .true_ | .false_ | .null | .env | .if_ | .match_ | .run | .emit => true
    | _ => false
  | .symbol s =>
    match s with
    | .leftParen | .leftBracket | .leftBrace | .bar | .or | .range | .rangeInclusive | .minus
      | .not => true
    | _ => false
  | .comment _ _ | .invalid => false

def atExpressionStart (s : State) : Bool := s.current?.any startsExpression

/-- Whether tokens begin with the name of a step and a colon. Some keywords may name a step. -/
def startsStep : List Token → Bool
  | name :: colon :: _ =>
    (match name.lexeme with
      | .identifier _ | .keyword .profile | .keyword .run | .keyword .path => true
      | _ => false) &&
    colon.lexeme == .symbol .colon
  | _ => false

def atStepStart (s : State) : Bool := startsStep s.after

/-- At a path, told from a step by the arrow behind the first name. -/
def atPathStart (s : State) : Bool :=
  s.sees (.keyword .path) && s.peek? 1 == some (.symbol .colon) && s.peek? 3 ==
    some (.symbol .arrow)

end State

end ApiScript.Grammar
