import ApiScript.Grammar.Declaration

set_option autoImplicit false
set_option relaxedAutoImplicit false

/-!
Runs: an operation or function run at once, or a block of named steps and the paths between them.
-/

namespace ApiScript.Grammar

variable (inner : Inner)

def variations? : Parser (Option Variations) := do
  let start ← get
  if ← accept (.keyword .with_) then
    let mode := if ← accept (.keyword .zip) then .zip else .product
    let axes ← object inner false
    return some ⟨mode, axes, start.currentSpan.merge axes.span⟩
  else
    return none

def inlineRun (start : Span) : Parser Run := do
  let target ← name .runTarget
  let args ← optionalObject inner
  let variations ← variations? inner
  return .inline (← upToHere start) target args variations

/-- Reads the name of a step, at which the state is known to be. -/
def stepName : Parser Name := do
  let s ← get
  advance
  return ⟨(s.current?.map (·.spelling)).getD "", s.currentSpan⟩

/-- Reads a step, at whose start the state is known to be. -/
def step : Parser RunItem := do
  let n ← stepName
  let _ ← expect (.symbol .colon)
  let operation ← name .operationName
  let args ← if (← get).sees (.symbol .leftBrace) then
    pure (some (← object inner false)) else pure none
  return .step (← upToHere n.span) n operation args

def path : Parser RunItem := do
  let start ← expect (.keyword .path)
  let _ ← expect (.symbol .colon)
  let chain ← collect (do
    if ← accept (.symbol .arrow) then return some (← name .pathStep) else
      return none) [← name .pathStart]
  return .path (← upToHere start) chain

def runItem : Parser RunItem := do
  let s ← get
  if s.atPathStart then path
  else if s.atStepStart then step inner
  else
    match ← declaration? inner with
    | some d => return .decl d
    | none => unexpected .runItem

def runBlock (start : Span) : Parser Run := do
  let opener ← expect (.symbol .leftBrace)
  let items ← statements .runBlock atBlockEnd (runItem inner)
  let closer ← close .brace false opener
  return .block (start.merge closer) items

def run : Parser Run := do
  let start ← expect (.keyword .run)
  if (← get).sees (.symbol .leftBrace) then runBlock inner start else inlineRun inner start

end ApiScript.Grammar
