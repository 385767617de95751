import ApiScript.Tree.Basic

set_option autoImplicit false
set_option relaxedAutoImplicit false

/-!
The nodes of a tree under one type, with the nodes that each is made of.
-/

namespace ApiScript

inductive Node
  | name (name : Name)
  | expr (expr : Expr)
  | literal (literal : Literal)
  | string (string : StringLiteral)
  | object (object : Object)
  | field (field : Field)
  | block (block : Block)
  | item (item : Item)
  | decl (decl : Decl)
  | pattern (pattern : Pattern)
  | fieldPattern (field : FieldPattern)
  | conditional (conditional : Conditional)
  | choice (choice : Choice)
  | arm (arm : Arm)
  | run (run : Run)
  | runItem (item : RunItem)
  | variations (variations : Variations)

namespace Node

def ofOption {α : Type} (make : α → Node) (part : Option α) : List Node := part.toList.map make

def ofKey : Key → Node
  | .name n => name n
  | .string s => string s

def ofBody : Body → Node
  | .block b => block b
  | .expr e => expr e

def ofAlternative : Alternative → Node
  | .block b => block b
  | .conditional c => conditional c

def childrenOfExpr : Expr → List Node
  | .pipe _ left right | .binary _ _ left right => [expr left, expr right]
  | .unary _ _ e | .paren _ e => [expr e]
  | .call _ callee args => expr callee :: args.map expr
  | .member _ o n => [expr o, name n]
  | .index _ o i => [expr o, expr i]
  | .literal l => [literal l]
  | .name n | .env _ n => [name n]
  | .array _ elements => elements.map expr
  | .object o => [object o]
  | .block b => [block b]
  | .conditional c => [conditional c]
  | .choice c => [choice c]
  | .lambda _ params body => params.map name ++ [expr body]
  | .run r => [run r]
  | .emit _ format args => ofOption name format ++ (args.getD []).map expr
  | .range _ start stop _ => ofOption literal start ++ ofOption literal stop

def childrenOfDecl : Decl → List Node
  | .operation _ n protocol method target query metadata =>
    [name n, name protocol, name method, string target] ++ ofOption string query ++
      ofOption object metadata
  | .profile _ n fields => [name n, object fields]
  | .function _ n params body => name n :: params.map name ++ [ofBody body]
  | .binding _ p value => [pattern p, expr value]
  | .use _ target body =>
    (match target with
      | .glob path | .path path => path.map name
      | .group path names => path.map name ++ names.map name
      | .expr e => [expr e]) ++
      ofOption block body

def childrenOfPattern : Pattern → List Node
  | .name n => [name n]
  | .wildcard _ => []
  | .literal l => [literal l]
  | .array _ elements => elements.map pattern
  | .object _ fields => fields.map fieldPattern
  | .range _ start stop _ => ofOption literal start ++ ofOption literal stop

/-- The nodes that a node is made of, in the order written. -/
def children : Node → List Node
  | name _ => []
  | expr e => childrenOfExpr e
  | literal (.string s) => [string s]
  | literal _ => []
  | string s => s.parts.filterMap fun
    | .text _ => none
    | .code e => some (expr e)
  | object o => o.fields.map field
  | field f => [ofKey f.key, expr f.value]
  | block b => b.items.map item
  | item (.decl d) => [decl d]
  | item (.expr e) => [expr e]
  | decl d => childrenOfDecl d
  | pattern p => childrenOfPattern p
  | fieldPattern f => name f.key :: ofOption pattern f.pattern
  | conditional c => [expr c.condition, block c.consequence] ++ ofOption ofAlternative c.alternative
  | choice c => expr c.subject :: c.arms.map arm
  | arm a => pattern a.pattern :: ofOption expr a.guard ++ [expr a.body]
  | run (.inline _ target args axes) =>
    name target :: ofOption object args ++ ofOption variations axes
  | run (.block _ items) => items.map runItem
  | runItem (.step _ n operation args) => [name n, name operation] ++ ofOption object args
  | runItem (.path _ chain) => chain.map name
  | runItem (.decl d) => [decl d]
  | variations v => [object v.axes]

end Node

end ApiScript
