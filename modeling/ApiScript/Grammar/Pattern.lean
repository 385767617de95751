import ApiScript.Grammar.Literal

set_option autoImplicit false
set_option relaxedAutoImplicit false

/-!
Patterns: what a value is bound to or tested against.
-/

namespace ApiScript.Grammar

variable (inner : Inner)

/-- Reads a mark of a range and tells whether its end is included. -/
def rangeMark : Parser Bool := do
  let inclusive := (← get).sees (.symbol .rangeInclusive)
  advance
  return inclusive

def fieldPattern : Parser FieldPattern := do
  let key ← name .patternFieldName
  if ← accept (.symbol .colon) then
    let p ← inner .pattern
    return ⟨key, some p, key.span.merge p.span⟩
  else
    return ⟨key, none, key.span⟩

/-- Reads the inside of a bracketed pattern; what is wrong with it is told of the whole. -/
def bracketed {α : Type} (delimiter : Delimiter) (opener : Span) (item : Parser α) :
    Parser (List α × Span) := do
  advance
  match ← outcome (delimited delimiter true opener item) with
  | .ok r => return r
  | .error d => throw (d.widen opener)

def literalPattern : Parser Pattern := do
  let start ← get
  let l ← literal inner
  if (← get).atRangeMark then
    let inclusive ← rangeMark
    let stop ← if (← get).atLiteral then pure (some (← literal inner)) else pure none
    return .range (start.currentSpan.merge (← get).previousSpan) (some l) stop inclusive
  else
    return .literal l

def openRangePattern : Parser Pattern := do
  let start ← get
  let inclusive ← rangeMark
  let s ← get
  if s.atLiteral then
    let stop ← literal inner
    return .range (start.currentSpan.merge stop.span) none (some stop) inclusive
  else
    throw ⟨.noRangeEnd, start.currentSpan.merge s.currentSpan⟩

def pattern : Parser Pattern := do
  let s ← get
  let start := s.currentSpan
  match s.current? with
  | some (.identifier text) =>
    advance
    return if text = "_" then .wildcard start else .name ⟨text, start⟩
  | some (.symbol .range) | some (.symbol .rangeInclusive) => openRangePattern inner
  | some (.symbol .leftBracket) =>
    let (elements, closer) ← bracketed .bracket start (inner .pattern)
    return .array (start.merge closer) elements
  | some (.symbol .leftBrace) =>
    let (fields, closer) ← bracketed .brace start (fieldPattern inner)
    return .object (start.merge closer) fields
  | found =>
    if s.atLiteral then literalPattern inner
    else throw ⟨.noPattern found, start⟩

end ApiScript.Grammar
