import ApiScript.Grammar.Expression

set_option autoImplicit false
set_option relaxedAutoImplicit false

/-!
The nesting of nodes. Each way from a node into one that is a level deeper leads through `enter`,
which counts the levels down from the limit. The depth is that of the readers and no part of what
they change: it is the same again behind a node, whether the node was read or not.
-/

namespace ApiScript.Grammar

/-- The parsers of nodes, given those of the nodes one level deeper. -/
def node (inner : Inner) : Inner
  | .expression => pipe inner
  | .operand => unary inner
  | .alternative => conditional inner
  | .block => itemBlock inner
  | .pattern => pattern inner

/-- The parsers of nodes with room for so many levels, theirs included, below the given limit. -/
def enter (limit : Nat) : Nat → Inner
  | 0 => fun _ => do throw ⟨.tooDeep limit, (← get).currentSpan⟩
  | room + 1 => node (enter limit room)

/-- Reads statements up to the end of the text. -/
def script (inner : Inner) : Parser Program := do
  let s ← get
  if s.broken then return ⟨[], s.area⟩
  return ⟨← statements .script State.atEnd (item inner), s.area⟩

end ApiScript.Grammar
