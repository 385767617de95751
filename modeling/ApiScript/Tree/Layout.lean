import ApiScript.Quoted.Encode
import ApiScript.Tree.Basic

set_option autoImplicit false
set_option relaxedAutoImplicit false

/-!
The layout of a tree: the lexemes it is written with and the blanks between them. No parentheses are
added to those of the tree, and numbers keep their spelling.
-/

namespace ApiScript

/-- A lexeme, one space, or a line break with the indentation of the next line. -/
inductive Piece
  | lexeme (lexeme : Lexeme)
  | space
  | line (indent : Nat)
  deriving DecidableEq

namespace Piece

def text : Piece → String
  | lexeme l => l.spelling
  | space => " "
  | line indent => "\n" ++ String.ofList (List.replicate indent ' ')

def render (ps : List Piece) : String := String.join (ps.map text)

def keyword (k : Keyword) : Piece := lexeme (.keyword k)

def symbol (s : Symbol) : Piece := lexeme (.symbol s)

def name (n : Name) : Piece := lexeme n.lexeme

/-- The pieces of names with the given ones between them. -/
def names (separator : List Piece) (ns : List Name) : List Piece :=
  separator.intercalate (ns.map ([name ·]))

def comma (more : Bool) : List Piece := if more then [symbol .comma, space] else []

/-- The pieces of a number, whose sign is a lexeme of its own. -/
def number (kind : NumberClass) (raw : String) : List Piece :=
  match raw.toList with
  | '-' :: digits => [symbol .minus, lexeme (.number kind (String.ofList digits))]
  | _ => [lexeme (.number kind raw)]

def rangeMark (inclusive : Bool) : Piece := symbol (if inclusive then .rangeInclusive else .range)

end Piece

open Piece

mutual

def Expr.layout (indent : Nat) : Expr → List Piece
  | .pipe _ left right => left.layout indent ++ [space, symbol .pipe, space] ++ right.layout indent
  | .binary _ op left right =>
    left.layout indent ++ [space, lexeme op.lexeme, space] ++ right.layout indent
  | .unary _ .neg (.literal (.integer s raw value)) =>
    [symbol .minus, space] ++ (Literal.integer s raw value).layout indent
  | .unary _ .neg (.literal (.float s raw value)) =>
    [symbol .minus, space] ++ (Literal.float s raw value).layout indent
  | .unary _ op operand => lexeme op.lexeme :: operand.layout indent
  | .call _ callee args =>
    callee.layout indent ++ [symbol .leftParen] ++ Expr.layoutAll indent args ++
      [symbol .rightParen]
  | .member _ object field => object.layout indent ++ [symbol .dot, name field]
  | .index _ object index =>
    object.layout indent ++ [symbol .leftBracket] ++ index.layout indent ++ [symbol .rightBracket]
  | .literal l => l.layout indent
  | .name n => [name n]
  | .env _ n => [keyword .env, symbol .dot, name n]
  | .paren _ inner => [symbol .leftParen] ++ inner.layout indent ++ [symbol .rightParen]
  | .array _ elements =>
    [symbol .leftBracket] ++ Expr.layoutAll indent elements ++ [symbol .rightBracket]
  | .object o => o.layout indent
  | .block b => b.layout indent
  | .conditional c => c.layout indent
  | .choice c => c.layout indent
  | .lambda _ params body =>
    [symbol .bar] ++ names [symbol .comma, space] params ++ [symbol .bar, space] ++
      body.layout indent
  | .run r => r.layout indent
  | .emit _ none _ => [keyword .emit]
  | .emit _ (some format) none => [keyword .emit, symbol .dot, name format]
  | .emit _ (some format) (some args) =>
    [keyword .emit, symbol .dot, name format, symbol .leftParen] ++ Expr.layoutAll indent args ++
      [symbol .rightParen]
  | .range _ start stop inclusive =>
    (match start with
      | none => []
      | some l => l.layout indent) ++ [rangeMark inclusive] ++
    (match stop with
      | none => []
      | some l => l.layout indent)

def Expr.layoutAll (indent : Nat) : List Expr → List Piece
  | [] => []
  | e :: es => e.layout indent ++ comma (!es.isEmpty) ++ Expr.layoutAll indent es

def Literal.layout (indent : Nat) : Literal → List Piece
  | .null _ => [keyword .null]
  | .bool _ value => [keyword (if value then .true_ else .false_)]
  | .integer _ raw _ => number .integer raw
  | .float _ raw _ => number .float raw
  | .duration _ raw _ _ => number .duration raw
  | .size _ raw _ _ => number .size raw
  | .string s => s.layout indent
  | .bytes _ value => [lexeme (Quoted.bytesLexeme value)]

def StringLiteral.layout (indent : Nat) : StringLiteral → List Piece
  | ⟨quote, parts, _⟩ => [lexeme (Quoted.lexeme quote (StringPart.encode quote indent parts))]

/-- The body of a string, with embedded code laid out in it. -/
def StringPart.encode (quote : Quote) (indent : Nat) : List StringPart → List Char
  | [] => []
  | .text text :: parts => Quoted.encode quote text.toList ++ StringPart.encode quote indent parts
  | .code e :: parts =>
    ['$', '{'] ++ (render (e.layout indent)).toList ++ ['}'] ++ StringPart.encode quote indent parts

def Object.layout (indent : Nat) : Object → List Piece
  | ⟨fields, _⟩ => [symbol .leftBrace] ++ Object.layoutFields indent fields ++ [symbol .rightBrace]

def Object.layoutFields (indent : Nat) : List Field → List Piece
  | [] => []
  | ⟨key, value, _⟩ :: fields =>
    key.layout indent ++ [symbol .colon, space] ++ value.layout indent ++ comma (!fields.isEmpty) ++
      Object.layoutFields indent fields

def Key.layout (indent : Nat) : Key → List Piece
  | .name n => [name n]
  | .string s => s.layout indent

def Block.layout (indent : Nat) : Block → List Piece
  | ⟨[], _⟩ => [symbol .leftBrace, symbol .rightBrace]
  | ⟨item :: items, _⟩ =>
    [symbol .leftBrace, line (indent + 2)] ++ item.layout (indent + 2) ++
      Block.layoutItems (indent + 2) items ++
      [line indent, symbol .rightBrace]

def Block.layoutItems (indent : Nat) : List Item → List Piece
  | [] => []
  | item :: items => line indent :: item.layout indent ++ Block.layoutItems indent items

def Item.layout (indent : Nat) : Item → List Piece
  | .decl d => d.layout indent
  | .expr e => e.layout indent

def Decl.layout (indent : Nat) : Decl → List Piece
  | .operation _ n protocol method target query metadata =>
    [keyword .op, space, name n, space, symbol .assign, space, name protocol, symbol .dot,
      name method, space] ++
      target.layout indent ++
      (match query with
        | none => []
        | some q => space :: q.layout indent) ++
      (match metadata with
        | none => []
        | some o => space :: o.layout indent)
  | .profile _ n fields => [keyword .profile, space, name n, space] ++ fields.layout indent
  | .function _ n params body =>
    [keyword .fn, space, name n, symbol .leftParen] ++ names [symbol .comma, space] params ++
      [symbol .rightParen, space] ++ body.layout indent
  | .binding _ pattern value =>
    [keyword .let_, space] ++ pattern.layout indent ++ [space, symbol .assign, space] ++
      value.layout indent
  | .use _ target body =>
    [keyword .use, space] ++ target.layout indent ++
      (match body with
        | none => []
        | some b => space :: b.layout indent)

def Body.layout (indent : Nat) : Body → List Piece
  | .block b => b.layout indent
  | .expr e => [symbol .assign, space] ++ e.layout indent

def UseTarget.layout (indent : Nat) : UseTarget → List Piece
  | .glob path => names [symbol .scope] path ++ [symbol .scope, symbol .star]
  | .group path ns =>
    names [symbol .scope] path ++ [symbol .scope, symbol .leftBrace] ++
      names [symbol .comma, space] ns ++
      [symbol .rightBrace]
  | .path path => names [symbol .scope] path
  | .expr e => e.layout indent

def Pattern.layout (indent : Nat) : Pattern → List Piece
  | .name n => [name n]
  | .wildcard _ => [lexeme (.identifier "_")]
  | .literal l => l.layout indent
  | .array _ elements =>
    [symbol .leftBracket] ++ Pattern.layoutAll indent elements ++ [symbol .rightBracket]
  | .object _ fields =>
    [symbol .leftBrace] ++ Pattern.layoutFields indent fields ++ [symbol .rightBrace]
  | .range _ start stop inclusive =>
    (match start with
      | none => []
      | some l => l.layout indent) ++ [rangeMark inclusive] ++
    (match stop with
      | none => []
      | some l => l.layout indent)

def Pattern.layoutAll (indent : Nat) : List Pattern → List Piece
  | [] => []
  | p :: ps => p.layout indent ++ comma (!ps.isEmpty) ++ Pattern.layoutAll indent ps

def Pattern.layoutFields (indent : Nat) : List FieldPattern → List Piece
  | [] => []
  | ⟨key, pattern, _⟩ :: fields =>
    name key ::
      (match pattern with
        | none => []
        | some p => [symbol .colon, space] ++ p.layout indent) ++
      comma (!fields.isEmpty) ++ Pattern.layoutFields indent fields

def Conditional.layout (indent : Nat) : Conditional → List Piece
  | ⟨condition, consequence, alternative, _⟩ =>
    [keyword .if_, space] ++ condition.layout indent ++ [space] ++ consequence.layout indent ++
      (match alternative with
        | none => []
        | some (.block b) => [space, keyword .else_, space] ++ b.layout indent
        | some (.conditional c) => [space, keyword .else_, space] ++ c.layout indent)

def Choice.layout (indent : Nat) : Choice → List Piece
  | ⟨subject, arms, _⟩ =>
    [keyword .match_, space] ++ subject.layout indent ++ [space, symbol .leftBrace] ++
      Choice.layoutArms (indent + 2) arms ++ [line indent, symbol .rightBrace]

/-- Arms, each on a line of its own with a comma behind it. -/
def Choice.layoutArms (indent : Nat) : List Arm → List Piece
  | [] => []
  | ⟨pattern, guard, body, _⟩ :: arms =>
    line indent :: pattern.layout indent ++
      (match guard with
        | none => []
        | some g => [space, keyword .if_, space] ++ g.layout indent) ++
      [space, symbol .fatArrow, space] ++ body.layout indent ++ [symbol .comma] ++
        Choice.layoutArms indent arms

def Run.layout (indent : Nat) : Run → List Piece
  | .inline _ target args variations =>
    [keyword .run, space, name target] ++
      (match args with
        | none => []
        | some o => space :: o.layout indent) ++
      (match variations with
        | none => []
        | some v => space :: v.layout indent)
  | .block _ [] => [keyword .run, space, symbol .leftBrace, symbol .rightBrace]
  | .block _ (item :: items) =>
    [keyword .run, space, symbol .leftBrace, line (indent + 2)] ++ item.layout (indent + 2) ++
      Run.layoutItems (indent + 2) items ++ [line indent, symbol .rightBrace]

def Run.layoutItems (indent : Nat) : List RunItem → List Piece
  | [] => []
  | item :: items => line indent :: item.layout indent ++ Run.layoutItems indent items

def Variations.layout (indent : Nat) : Variations → List Piece
  | ⟨.product, axes, _⟩ => [keyword .with_, space] ++ axes.layout indent
  | ⟨.zip, axes, _⟩ => [keyword .with_, space, keyword .zip, space] ++ axes.layout indent

def RunItem.layout (indent : Nat) : RunItem → List Piece
  | .step _ n operation args =>
    [name n, symbol .colon, space, name operation] ++
      (match args with
        | none => []
        | some o => space :: o.layout indent)
  | .path _ chain =>
    [keyword .path, symbol .colon, space] ++ names [space, symbol .arrow, space] chain
  | .decl d => d.layout indent

end

def Program.layout (p : Program) : List Piece :=
  [line 0].intercalate (p.items.map (·.layout 0))

def Expr.print (e : Expr) : String := render (e.layout 0)

def Literal.print (l : Literal) : String := render (l.layout 0)

def Pattern.print (p : Pattern) : String := render (p.layout 0)

def Program.print (p : Program) : String := render p.layout

end ApiScript
