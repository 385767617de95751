import ApiScript.Lexeme.Scan
import ApiScript.Numeral.Quantity

set_option autoImplicit false
set_option relaxedAutoImplicit false

/-!
The tree of a script. A node that is written with tokens of its own carries the span of its text;
any other node takes the span of its only part.
-/

namespace ApiScript

structure Name where
  text : String
  span : Span
  deriving DecidableEq

/-- The lexeme a name is written as; some keywords may name a step. -/
def Name.lexeme (n : Name) : Lexeme := .ofWord n.text

inductive BinaryOp
  | or | and | equal | notEqual | less | lessEqual | greater | greaterEqual | member | like
  | add | sub | mul | div | rem
  deriving DecidableEq

namespace BinaryOp

def all : List BinaryOp :=
  [or, and, equal, notEqual, less, lessEqual, greater, greaterEqual, member, like, add, sub, mul,
    div, rem]

def lexeme : BinaryOp → Lexeme
  | or => .symbol .or
  | and => .symbol .and
  | equal => .symbol .equal
  | notEqual => .symbol .notEqual
  | less => .symbol .less
  | lessEqual => .symbol .lessEqual
  | greater => .symbol .greater
  | greaterEqual => .symbol .greaterEqual
  | member => .keyword .in_
  | like => .symbol .like
  | add => .symbol .plus
  | sub => .symbol .minus
  | mul => .symbol .star
  | div => .symbol .slash
  | rem => .symbol .percent

def ofLexeme? (l : Lexeme) : Option BinaryOp := all.find? (·.lexeme == l)

/-- How tightly the operator binds; a pipe binds less than any of them. -/
def precedence : BinaryOp → Nat
  | or => 2
  | and => 3
  | equal | notEqual => 4
  | less | lessEqual | greater | greaterEqual | member | like => 5
  | add | sub => 6
  | mul | div | rem => 7

theorem precedence_lt (op : BinaryOp) : op.precedence < 8 := by cases op <;> decide

end BinaryOp

inductive UnaryOp
  | not | neg
  deriving DecidableEq

def UnaryOp.lexeme : UnaryOp → Lexeme
  | .not => .symbol .not
  | .neg => .symbol .minus

/-- How the axes of a variation combine: every choice with every other, or position by position. -/
inductive VariationMode
  | product | zip
  deriving DecidableEq

mutual

inductive Expr
  /-- Writes `left |> right`. -/
  | pipe (span : Span) (left right : Expr)
  | binary (span : Span) (op : BinaryOp) (left right : Expr)
  | unary (span : Span) (op : UnaryOp) (operand : Expr)
  | call (span : Span) (callee : Expr) (args : List Expr)
  | member (span : Span) (object : Expr) (field : Name)
  | index (span : Span) (object index : Expr)
  | literal (literal : Literal)
  | name (name : Name)
  /-- Writes `env.NAME`. -/
  | env (span : Span) (name : Name)
  | paren (span : Span) (inner : Expr)
  | array (span : Span) (elements : List Expr)
  | object (object : Object)
  | block (block : Block)
  | conditional (conditional : Conditional)
  | choice (choice : Choice)
  /-- Writes `|a, b| body`. -/
  | lambda (span : Span) (params : List Name) (body : Expr)
  | run (run : Run)
  /-- Writes `emit`, `emit.format` or `emit.format(args)`. -/
  | emit (span : Span) (format : Option Name) (args : Option (List Expr))
  | range (span : Span) (start stop : Option Literal) (inclusive : Bool)

/-- A number keeps its spelling in `raw`, with the sign that belongs to it. -/
inductive Literal
  | null (span : Span)
  | bool (span : Span) (value : Bool)
  | integer (span : Span) (raw : String) (value : Int)
  | float (span : Span) (raw : String) (value : Binary64)
  | duration (span : Span) (raw : String) (value : Binary64) (unit : DurationUnit)
  | size (span : Span) (raw : String) (value : Binary64) (unit : SizeUnit)
  | string (string : StringLiteral)
  | bytes (span : Span) (value : List UInt8)

structure StringLiteral where
  quote : Quote
  parts : List StringPart
  span : Span

inductive StringPart
  | text (text : String)
  | code (expr : Expr)

structure Object where
  fields : List Field
  span : Span

structure Field where
  key : Key
  value : Expr
  span : Span

inductive Key
  | name (name : Name)
  | string (string : StringLiteral)

structure Block where
  items : List Item
  span : Span

inductive Item
  | decl (decl : Decl)
  | expr (expr : Expr)

inductive Decl
  /-- Writes `op name = protocol.method target query metadata`, the last two optional. -/
  | operation (span : Span) (name protocol method : Name) (target : StringLiteral)
      (query : Option StringLiteral) (metadata : Option Object)
  | profile (span : Span) (name : Name) (fields : Object)
  | function (span : Span) (name : Name) (params : List Name) (body : Body)
  | binding (span : Span) (pattern : Pattern) (value : Expr)
  | use (span : Span) (target : UseTarget) (body : Option Block)

inductive Body
  | block (block : Block)
  | expr (expr : Expr)

inductive UseTarget
  /-- Writes `a::b::*`. -/
  | glob (path : List Name)
  /-- Writes `a::b::` and names in braces. -/
  | group (path names : List Name)
  | path (path : List Name)
  | expr (expr : Expr)

inductive Pattern
  | name (name : Name)
  | wildcard (span : Span)
  | literal (literal : Literal)
  | array (span : Span) (elements : List Pattern)
  | object (span : Span) (fields : List FieldPattern)
  | range (span : Span) (start stop : Option Literal) (inclusive : Bool)

/-- A key alone binds the field's value to a variable of that name. -/
structure FieldPattern where
  key : Name
  pattern : Option Pattern
  span : Span

structure Conditional where
  condition : Expr
  consequence : Block
  alternative : Option Alternative
  span : Span

inductive Alternative
  | block (block : Block)
  | conditional (conditional : Conditional)

/-- The arms of a match are tried in order. -/
structure Choice where
  subject : Expr
  arms : List Arm
  span : Span

structure Arm where
  pattern : Pattern
  guard : Option Expr
  body : Expr
  span : Span

inductive Run
  | inline (span : Span) (target : Name) (args : Option Object) (variations : Option Variations)
  | block (span : Span) (items : List RunItem)

/-- Writes `with` and an object of axes, with `zip` in between for that mode. -/
structure Variations where
  mode : VariationMode
  axes : Object
  span : Span

inductive RunItem
  | step (span : Span) (name operation : Name) (args : Option Object)
  /-- Writes `path: a -> b -> c`. -/
  | path (span : Span) (chain : List Name)
  | decl (decl : Decl)

end

structure Program where
  items : List Item
  span : Span

def Literal.span : Literal → Span
  | .null s | .bool s _ | .integer s _ _ | .float s _ _ | .duration s _ _ _ | .size s _ _ _
  | .bytes s _ => s
  | .string s => s.span

def Literal.integer? : Literal → Option Int
  | .integer _ _ value => some value
  | _ => none

def Run.span : Run → Span
  | .inline s _ _ _ | .block s _ => s

def Expr.span : Expr → Span
  | .pipe s _ _ | .binary s _ _ _ | .unary s _ _ | .call s _ _ | .member s _ _ | .index s _ _
  | .env s _ | .paren s _ | .array s _ | .lambda s _ _ | .emit s _ _ | .range s _ _ _ => s
  | .literal l => l.span
  | .name n => n.span
  | .object o => o.span
  | .block b => b.span
  | .conditional c => c.span
  | .choice c => c.span
  | .run r => r.span

def Pattern.span : Pattern → Span
  | .name n => n.span
  | .wildcard s | .array s _ | .object s _ | .range s _ _ _ => s
  | .literal l => l.span

def Decl.span : Decl → Span
  | .operation s _ _ _ _ _ _ | .profile s _ _ | .function s _ _ _ | .binding s _ _ | .use s _ _ => s

def Item.span : Item → Span
  | .decl d => d.span
  | .expr e => e.span

namespace StringLiteral

def plain? (s : StringLiteral) : Option String :=
  match s.parts with
  | [] => some ""
  | [.text text] => some text
  | _ => none

def isInterpolated (s : StringLiteral) : Bool :=
  s.parts.any fun
    | .code _ => true
    | .text _ => false

end StringLiteral

namespace Key

def name? : Key → Option String
  | name n => some n.text
  | string s => s.plain?

def span : Key → Span
  | name n => n.span
  | string s => s.span

end Key

/-- The value of the first field with a key. -/
def Object.get? (o : Object) (key : String) : Option Expr :=
  (o.fields.find? (·.key.name? == some key)).map (·.value)

def Block.tail? (b : Block) : Option Expr :=
  match b.items.getLast? with
  | some (.expr e) => some e
  | _ => none

def Run.steps : Run → List Name
  | .inline _ _ _ _ => []
  | .block _ items => items.filterMap fun
    | .step _ name _ _ => some name
    | _ => none

mutual

/-- The names a pattern binds, in order and with repetitions. -/
def Pattern.bindings : Pattern → List String
  | .name n => [n.text]
  | .array _ elements => bindingsOfAll elements
  | .object _ fields => bindingsOfFields fields
  | .wildcard _ | .literal _ | .range _ _ _ _ => []

def Pattern.bindingsOfAll : List Pattern → List String
  | [] => []
  | p :: ps => p.bindings ++ Pattern.bindingsOfAll ps

/-- The names that fields bind: those of the pattern, or the key where there is none. -/
def Pattern.bindingsOfFields : List FieldPattern → List String
  | [] => []
  | ⟨key, none, _⟩ :: fields => key.text :: Pattern.bindingsOfFields fields
  | ⟨_, some p, _⟩ :: fields => p.bindings ++ Pattern.bindingsOfFields fields

end

end ApiScript
