import ApiScript.Grammar.Literal

set_option autoImplicit false
set_option relaxedAutoImplicit false

/-!
Braces: objects, and blocks of statements.
-/

namespace ApiScript.Grammar

variable (inner : Inner)

def field : Parser Field := do
  let s ← get
  let key ←
    if s.atIdentifier then pure (Key.name (← name .fieldName))
    else pure (Key.string (← string inner .fieldName))
  let _ ← expect (.symbol .colon)
  let value ← inner .expression
  return ⟨key, value, key.span.merge value.span⟩

/-- Reads an object. Where `guessed` says that only its first key told the object from a block, a
body that goes on otherwise is ambiguous. -/
def object (guessed : Bool) : Parser Object := do
  let opener ← expect (.symbol .leftBrace)
  let (fields, _) ← repeated (fun (fields, more) => do
    if more ∧ ¬(← get).sees (.symbol .rightBrace) then
      let f ← field inner
      return some (fields ++ [f], ← accept (.symbol .comma))
    else
      return none) ([], true)
  let s ← get
  if guessed ∧ ¬s.sees (.symbol .rightBrace) ∧ ¬s.atEnd then
    throw ⟨.noObject s.current?, opener.merge s.currentSpan⟩
  let closer ← close .brace true opener
  return ⟨fields, opener.merge closer⟩

def optionalObject : Parser (Option Object) := do
  if (← get).atOptionalObject then return some (← object inner false) else return none

def atBlockEnd (s : State) : Bool := s.sees (.symbol .rightBrace) || s.atEnd

def block (statement : Parser Item) : Parser Block := do
  let opener ← expect (.symbol .leftBrace)
  let items ← statements .block atBlockEnd statement
  let closer ← close .brace false opener
  return ⟨items, opener.merge closer⟩

end ApiScript.Grammar
