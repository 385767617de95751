import ApiScript.Grammar.Pattern
import ApiScript.Grammar.Run

set_option autoImplicit false
set_option relaxedAutoImplicit false

/-!
Expressions, from the tightest form to the loosest: primary forms, what is written behind them,
unary and binary operators, and pipes.
-/

namespace ApiScript.Grammar

variable (inner : Inner)

def literalOrRange : Parser Expr := do
  let l ← literal inner
  if l.integer?.isSome ∧ (← get).atRangeMark then
    let inclusive ← rangeMark
    let stop ← if (← get).atInteger then pure (some (← literal inner)) else pure none
    return .range (← upToHere l.span) (some l) stop inclusive
  else
    return .literal l

def openRange : Parser Expr := do
  let start ← ask State.currentSpan
  let inclusive ← rangeMark
  if (← get).atInteger then
    let stop ← literal inner
    return .range (start.merge stop.span) none (some stop) inclusive
  else
    unexpected .rangeEnd

def environment : Parser Expr := do
  let start ← expect (.keyword .env)
  let _ ← expect (.symbol .dot)
  let n ← name .environmentName
  return .env (start.merge n.span) n

def parenthesized : Parser Expr := do
  let opener ← expect (.symbol .leftParen)
  let e ← inner .expression
  let closer ← close .parenthesis false opener
  return .paren (opener.merge closer) e

def array : Parser Expr := do
  let opener ← expect (.symbol .leftBracket)
  let (elements, closer) ← delimited .bracket true opener (inner .expression)
  return .array (opener.merge closer) elements

/-- Reads an object where a key follows the brace, and a block elsewhere. A block here is no level
deeper than its expression. -/
def braced : Parser Expr := do
  if (← get).atObjectStart then return .object (← object inner true)
  else return .block (← itemBlock inner)

def alternative? : Parser (Option Alternative) := do
  if ← accept (.keyword .else_) then
    if (← get).sees (.keyword .if_) then return some (.conditional (← inner .alternative))
    else return some (.block (← inner .block))
  else
    return none

def conditional : Parser Conditional := do
  let start ← expect (.keyword .if_)
  let condition ← inner .expression
  let consequence ← inner .block
  let alternative ← alternative? inner
  return ⟨condition, consequence, alternative, ← upToHere start⟩

def arm : Parser Arm := do
  let p ← inner .pattern
  let guard ← if ← accept (.keyword .if_) then pure (some (← inner .expression)) else pure none
  let _ ← expect (.symbol .fatArrow)
  let body ← inner .expression
  return ⟨p, guard, body, p.span.merge body.span⟩

def choice : Parser Choice := do
  let start ← expect (.keyword .match_)
  let subject ← inner .expression
  let opener ← expect (.symbol .leftBrace)
  let (arms, closer) ← delimited .brace true opener (arm inner)
  return ⟨subject, arms, start.merge closer⟩

/-- Reads the parameters of a lambda; two bars may be written as one symbol. -/
def lambdaParameters : Parser (List Name) := do
  if ← accept (.symbol .or) then return []
  else names .bar (← expect (.symbol .bar)) .lambdaParameter

def lambda : Parser Expr := do
  let start ← ask State.currentSpan
  let params ← lambdaParameters
  operand (.symbol .bar)
  let body ← inner .expression
  return .lambda (start.merge body.span) params body

def arguments : Parser (List Expr × Span) := do
  let opener ← expect (.symbol .leftParen)
  delimited .parenthesis false opener (inner .expression)

/-- Reads an emission. A point or an argument list belongs to it only where it is written against
what is in front of it. -/
def emission : Parser Expr := do
  let start ← expect (.keyword .emit)
  let s ← get
  if s.sees (.symbol .dot) ∧ start.touches s.currentSpan then
    advance
    let format ← name .emitFormat
    let s ← get
    if s.sees (.symbol .leftParen) ∧ format.span.touches s.currentSpan then
      let (args, closer) ← arguments inner
      return .emit ((start.merge format.span).merge closer) (some format) (some args)
    else
      return .emit (start.merge format.span) (some format) none
  else if s.sees (.symbol .leftParen) ∧ start.touches s.currentSpan then
    unexpected .emitFormatBeforeArguments
  else
    return .emit start none none

def primary : Parser Expr := do
  let s ← get
  match s.current? with
  | some (.identifier _) => return .name (← name .expression)
  | some (.keyword .env) => environment
  | some (.symbol .range) | some (.symbol .rangeInclusive) => openRange inner
  | some (.symbol .leftParen) => parenthesized inner
  | some (.symbol .leftBracket) => array inner
  | some (.symbol .leftBrace) => braced inner
  | some (.keyword .if_) => return .conditional (← conditional inner)
  | some (.keyword .match_) => return .choice (← choice inner)
  | some (.symbol .bar) | some (.symbol .or) => lambda inner
  | some (.keyword .run) => return .run (← run inner)
  | some (.keyword .emit) => emission inner
  | _ => if s.atLiteral then literalOrRange inner else unexpected .expression

/-- Reads one member access, index or call behind an expression, if there is one. -/
def suffix? (e : Expr) : Parser (Option Expr) := do
  let s ← get
  match s.current? with
  | some (.symbol .dot) =>
    advance
    let n ← name .memberName
    return some (.member (e.span.merge n.span) e n)
  | some (.symbol .leftBracket) =>
    advance
    let index ← inner .expression
    let closer ← close .bracket false s.currentSpan
    return some (.index (e.span.merge closer) e index)
  | some (.symbol .leftParen) =>
    let (args, closer) ← arguments inner
    return some (.call (e.span.merge closer) e args)
  | _ => return none

/-- Reads a primary form and all that is written behind it. An emission takes no more than it
has. -/
def postfixed : Parser Expr := do
  match ← primary inner with
  | .emit span format args => return .emit span format args
  | e => repeated (suffix? inner) e

def unaryOp? (s : State) : Option UnaryOp :=
  match s.current? with
  | some (.symbol .not) => some .not
  | some (.symbol .minus) => if s.atNegativeNumber then none else some .neg
  | _ => none

def unary : Parser Expr := do
  let s ← get
  match unaryOp? s with
  | some op =>
    advance
    operand op.lexeme
    let e ← inner .operand
    return .unary (s.currentSpan.merge e.span) op e
  | none => postfixed inner

/-- Reads one more operator of a kind and its right operand, if there is one. -/
def extend? {Op : Type} (operator? : Lexeme → Option Op) (right : Op → Parser Expr)
    (combine : Span → Op → Expr → Expr → Expr) (left : Expr) : Parser (Option Expr) := do
  match (← get).current? with
  | none => return none
  | some l =>
    match operator? l with
    | none => return none
    | some op =>
      advance
      operand l
      let e ← right op
      return some (combine (left.span.merge e.span) op left e)

/-- The binary operator that a lexeme stands for, if it binds at least as tightly as `minimum`. -/
def operatorFrom (minimum : Nat) (l : Lexeme) : Option {op : BinaryOp // minimum ≤ op.precedence} :=
  (BinaryOp.ofLexeme? l).bind fun op =>
    if h : minimum ≤ op.precedence then some ⟨op, h⟩ else none

/-- Reads operators that bind at least as tightly as `minimum`, which group to the left: a right
operand is made of operators that bind more tightly than the one in front of it. -/
@[semireducible]
def climb (minimum : Nat) : Parser Expr := do
  repeated (extend? (operatorFrom minimum) (fun op => climb (op.1.precedence + 1))
    fun span op => .binary span op.1) (← unary inner)
termination_by 8 - minimum
decreasing_by
  have := op.1.precedence_lt
  have := op.2
  omega

def pipeOf (l : Lexeme) : Option Unit := if l = .symbol .pipe then some () else none

/-- Reads pipes, which group to the left. -/
def pipe : Parser Expr := do
  repeated (extend? pipeOf (fun _ => climb inner 0) fun span _ => .pipe span) (← climb inner 0)

end ApiScript.Grammar
