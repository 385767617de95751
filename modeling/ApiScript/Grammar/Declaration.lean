import ApiScript.Grammar.Block

set_option autoImplicit false
set_option relaxedAutoImplicit false

/-!
Declarations: operations, profiles, functions, bindings and uses, each told by its first keyword.
-/

namespace ApiScript.Grammar

variable (inner : Inner)

/-- Reads names with commas between them and the closer. -/
def names (delimiter : Delimiter) (opener : Span) (expected : Expectation) :
    Parser (List Name) := do
  let (ns, _) ← delimited delimiter false opener (name expected)
  return ns

/-- Extends a span to the end of the last token read. -/
def upToHere (start : Span) : Parser Span := ask fun s => start.merge s.previousSpan

def operation : Parser Decl := do
  let start ← expect (.keyword .op)
  let n ← name .operationName
  let _ ← expect (.symbol .assign)
  let protocol ← name .protocolName
  let _ ← expect (.symbol .dot)
  let method ← name .methodName
  let target ← string inner .requestTarget
  let query ← if (← get).atString then pure (some (← string inner .requestTarget)) else pure none
  let metadata ← optionalObject inner
  return .operation (← upToHere start) n protocol method target query metadata

def profile : Parser Decl := do
  let start ← expect (.keyword .profile)
  let n ← name .profileName
  let fields ← object inner false
  return .profile (start.merge fields.span) n fields

def functionBody : Parser Body := do
  if ← accept (.symbol .assign) then
    return .expr (← inner .expression)
  else if (← get).sees (.symbol .leftBrace) then
    return .block (← inner .block)
  else
    unexpected .functionBody

def function : Parser Decl := do
  let start ← expect (.keyword .fn)
  let n ← name .functionName
  let opener ← expect (.symbol .leftParen)
  let params ← names .parenthesis opener .parameterName
  let body ← functionBody inner
  return .function (← upToHere start) n params body

def binding : Parser Decl := do
  let start ← expect (.keyword .let_)
  let p ← inner .pattern
  let _ ← expect (.symbol .assign)
  let value ← inner .expression
  return .binding (start.merge value.span) p value

/-- Reads the names of a path, up to its end or a last part that is no name. -/
def usePath : Parser (List Name) := do
  collect (do
    let s ← get
    if s.sees (.symbol .scope) ∧ s.peek? 1 ≠ some (.symbol .star) ∧
        s.peek? 1 ≠ some (.symbol .leftBrace) then
      advance
      return some (← name .moduleNameOrEnd)
    else
      return none) [← name .moduleName]

def importedNames : Parser (List Name) := do
  let opener ← expect (.symbol .leftBrace)
  if (← get).sees (.symbol .rightBrace) then
    unexpected .importedName
  else
    names .brace opener .importedName

/-- Reads a path and the last part that tells what is used of it. -/
def pathTarget : Parser UseTarget := do
  let path ← usePath
  if ← accept (.symbol .scope) then
    if ← accept (.symbol .star) then return .glob path
    return .group path (← importedNames)
  else
    return .path path

def use : Parser Decl := do
  let start ← expect (.keyword .use)
  let s ← get
  let target ←
    if s.atIdentifier ∧ s.peek? 1 = some (.symbol .scope) then pathTarget
    else pure (.expr (← inner .expression))
  let body ← if (← get).sees (.symbol .leftBrace) then pure (some (← inner .block)) else pure none
  return .use (← upToHere start) target body

/-- Reads a declaration where one begins. -/
def declaration? : Parser (Option Decl) := do
  match (← get).current? with
  | some (.keyword .op) => return some (← operation inner)
  | some (.keyword .profile) => return some (← profile inner)
  | some (.keyword .fn) => return some (← function inner)
  | some (.keyword .let_) => return some (← binding inner)
  | some (.keyword .use) => return some (← use inner)
  | _ => return none

/-- Reads a statement: a declaration or an expression. -/
def item : Parser Item := do
  match ← declaration? inner with
  | some d => return .decl d
  | none => return .expr (← inner .expression)

def itemBlock : Parser Block := block (item inner)

end ApiScript.Grammar
