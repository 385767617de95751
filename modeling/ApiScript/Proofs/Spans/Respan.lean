import ApiScript.Tree.Basic

set_option autoImplicit false
set_option relaxedAutoImplicit false

/-!
Trees with other spans: the same nodes, each with what a function makes of its span. A bare tree is
what is left of a tree without the places it was read from.
-/

namespace ApiScript

def Name.respan (f : Span → Span) (n : Name) : Name := { n with span := f n.span }

mutual

def Expr.respan (f : Span → Span) : Expr → Expr
  | .pipe s left right => .pipe (f s) (left.respan f) (right.respan f)
  | .binary s op left right => .binary (f s) op (left.respan f) (right.respan f)
  | .unary s op operand => .unary (f s) op (operand.respan f)
  | .call s callee args => .call (f s) (callee.respan f) (Expr.respanAll f args)
  | .member s object field => .member (f s) (object.respan f) (field.respan f)
  | .index s object index => .index (f s) (object.respan f) (index.respan f)
  | .literal l => .literal (l.respan f)
  | .name n => .name (n.respan f)
  | .env s n => .env (f s) (n.respan f)
  | .paren s inner => .paren (f s) (inner.respan f)
  | .array s elements => .array (f s) (Expr.respanAll f elements)
  | .object o => .object (o.respan f)
  | .block b => .block (b.respan f)
  | .conditional c => .conditional (c.respan f)
  | .choice c => .choice (c.respan f)
  | .lambda s params body => .lambda (f s) (params.map (Name.respan f)) (body.respan f)
  | .run r => .run (r.respan f)
  | .emit s format none => .emit (f s) (format.map (Name.respan f)) none
  | .emit s format (some args) =>
    .emit (f s) (format.map (Name.respan f)) (some (Expr.respanAll f args))
  | .range s start stop inclusive =>
    .range (f s)
      (match start with
        | none => none
        | some l => some (l.respan f))
      (match stop with
        | none => none
        | some l => some (l.respan f))
      inclusive

def Expr.respanAll (f : Span → Span) : List Expr → List Expr
  | [] => []
  | e :: es => e.respan f :: Expr.respanAll f es

def Literal.respan (f : Span → Span) : Literal → Literal
  | .null s => .null (f s)
  | .bool s value => .bool (f s) value
  | .integer s raw value => .integer (f s) raw value
  | .float s raw value => .float (f s) raw value
  | .duration s raw value unit => .duration (f s) raw value unit
  | .size s raw value unit => .size (f s) raw value unit
  | .string s => .string (s.respan f)
  | .bytes s value => .bytes (f s) value

def StringLiteral.respan (f : Span → Span) : StringLiteral → StringLiteral
  | ⟨quote, parts, s⟩ => ⟨quote, StringPart.respanAll f parts, f s⟩

def StringPart.respanAll (f : Span → Span) : List StringPart → List StringPart
  | [] => []
  | .text text :: parts => .text text :: StringPart.respanAll f parts
  | .code e :: parts => .code (e.respan f) :: StringPart.respanAll f parts

def Object.respan (f : Span → Span) : Object → Object
  | ⟨fields, s⟩ => ⟨Field.respanAll f fields, f s⟩

def Field.respanAll (f : Span → Span) : List Field → List Field
  | [] => []
  | field :: fields => field.respan f :: Field.respanAll f fields

def Field.respan (f : Span → Span) : Field → Field
  | ⟨key, value, s⟩ => ⟨key.respan f, value.respan f, f s⟩

def Key.respan (f : Span → Span) : Key → Key
  | .name n => .name (n.respan f)
  | .string s => .string (s.respan f)

def Block.respan (f : Span → Span) : Block → Block
  | ⟨items, s⟩ => ⟨Item.respanAll f items, f s⟩

def Item.respanAll (f : Span → Span) : List Item → List Item
  | [] => []
  | item :: items => item.respan f :: Item.respanAll f items

def Item.respan (f : Span → Span) : Item → Item
  | .decl d => .decl (d.respan f)
  | .expr e => .expr (e.respan f)

def Decl.respan (f : Span → Span) : Decl → Decl
  | .operation s n protocol method target query metadata =>
    .operation (f s) (n.respan f) (protocol.respan f) (method.respan f) (target.respan f)
      (match query with
        | none => none
        | some q => some (q.respan f))
      (match metadata with
        | none => none
        | some o => some (o.respan f))
  | .profile s n fields => .profile (f s) (n.respan f) (fields.respan f)
  | .function s n params body =>
    .function (f s) (n.respan f) (params.map (Name.respan f)) (body.respan f)
  | .binding s pattern value => .binding (f s) (pattern.respan f) (value.respan f)
  | .use s target body =>
    .use (f s) (target.respan f)
      (match body with
        | none => none
        | some b => some (b.respan f))

def Body.respan (f : Span → Span) : Body → Body
  | .block b => .block (b.respan f)
  | .expr e => .expr (e.respan f)

def UseTarget.respan (f : Span → Span) : UseTarget → UseTarget
  | .glob path => .glob (path.map (Name.respan f))
  | .group path names => .group (path.map (Name.respan f)) (names.map (Name.respan f))
  | .path path => .path (path.map (Name.respan f))
  | .expr e => .expr (e.respan f)

def Pattern.respan (f : Span → Span) : Pattern → Pattern
  | .name n => .name (n.respan f)
  | .wildcard s => .wildcard (f s)
  | .literal l => .literal (l.respan f)
  | .array s elements => .array (f s) (Pattern.respanAll f elements)
  | .object s fields => .object (f s) (FieldPattern.respanAll f fields)
  | .range s start stop inclusive =>
    .range (f s)
      (match start with
        | none => none
        | some l => some (l.respan f))
      (match stop with
        | none => none
        | some l => some (l.respan f))
      inclusive

def Pattern.respanAll (f : Span → Span) : List Pattern → List Pattern
  | [] => []
  | p :: ps => p.respan f :: Pattern.respanAll f ps

def FieldPattern.respanAll (f : Span → Span) : List FieldPattern → List FieldPattern
  | [] => []
  | field :: fields => field.respan f :: FieldPattern.respanAll f fields

def FieldPattern.respan (f : Span → Span) : FieldPattern → FieldPattern
  | ⟨key, pattern, s⟩ =>
    ⟨key.respan f,
      (match pattern with
        | none => none
        | some p => some (p.respan f)), f s⟩

def Conditional.respan (f : Span → Span) : Conditional → Conditional
  | ⟨condition, consequence, alternative, s⟩ =>
    ⟨condition.respan f, consequence.respan f,
      (match alternative with
        | none => none
        | some a => some (a.respan f)), f s⟩

def Alternative.respan (f : Span → Span) : Alternative → Alternative
  | .block b => .block (b.respan f)
  | .conditional c => .conditional (c.respan f)

def Choice.respan (f : Span → Span) : Choice → Choice
  | ⟨subject, arms, s⟩ => ⟨subject.respan f, Arm.respanAll f arms, f s⟩

def Arm.respanAll (f : Span → Span) : List Arm → List Arm
  | [] => []
  | arm :: arms => arm.respan f :: Arm.respanAll f arms

def Arm.respan (f : Span → Span) : Arm → Arm
  | ⟨pattern, guard, body, s⟩ =>
    ⟨pattern.respan f,
      (match guard with
        | none => none
        | some g => some (g.respan f)), body.respan f, f s⟩

def Run.respan (f : Span → Span) : Run → Run
  | .inline s target args variations =>
    .inline (f s) (target.respan f)
      (match args with
        | none => none
        | some o => some (o.respan f))
      (match variations with
        | none => none
        | some v => some (v.respan f))
  | .block s items => .block (f s) (RunItem.respanAll f items)

def RunItem.respanAll (f : Span → Span) : List RunItem → List RunItem
  | [] => []
  | item :: items => item.respan f :: RunItem.respanAll f items

def Variations.respan (f : Span → Span) : Variations → Variations
  | ⟨mode, axes, s⟩ => ⟨mode, axes.respan f, f s⟩

def RunItem.respan (f : Span → Span) : RunItem → RunItem
  | .step s n operation args =>
    .step (f s) (n.respan f) (operation.respan f)
      (match args with
        | none => none
        | some o => some (o.respan f))
  | .path s chain => .path (f s) (chain.map (Name.respan f))
  | .decl d => .decl (d.respan f)

end

def Program.respan (f : Span → Span) (p : Program) : Program := ⟨Item.respanAll f p.items, f p.span⟩

section Lists

variable (f : Span → Span)

theorem Expr.respanAll_eq_map (es : List Expr) : Expr.respanAll f es = es.map (Expr.respan f) := by
  induction es with
  | nil => rfl
  | cons e es ih => rw [Expr.respanAll, ih, List.map_cons]

theorem Field.respanAll_eq_map (fields : List Field) :
    Field.respanAll f fields = fields.map (Field.respan f) := by
  induction fields with
  | nil => rfl
  | cons field fields ih => rw [Field.respanAll, ih, List.map_cons]

theorem Item.respanAll_eq_map (items : List Item) :
    Item.respanAll f items = items.map (Item.respan f) := by
  induction items with
  | nil => rfl
  | cons item items ih => rw [Item.respanAll, ih, List.map_cons]

theorem Pattern.respanAll_eq_map (ps : List Pattern) :
    Pattern.respanAll f ps = ps.map (Pattern.respan f) := by
  induction ps with
  | nil => rfl
  | cons p ps ih => rw [Pattern.respanAll, ih, List.map_cons]

theorem FieldPattern.respanAll_eq_map (fields : List FieldPattern) :
    FieldPattern.respanAll f fields = fields.map (FieldPattern.respan f) := by
  induction fields with
  | nil => rfl
  | cons field fields ih => rw [FieldPattern.respanAll, ih, List.map_cons]

theorem Arm.respanAll_eq_map (arms : List Arm) :
    Arm.respanAll f arms = arms.map (Arm.respan f) := by
  induction arms with
  | nil => rfl
  | cons arm arms ih => rw [Arm.respanAll, ih, List.map_cons]

theorem RunItem.respanAll_eq_map (items : List RunItem) :
    RunItem.respanAll f items = items.map (RunItem.respan f) := by
  induction items with
  | nil => rfl
  | cons item items ih => rw [RunItem.respanAll, ih, List.map_cons]

end Lists

section Spans

variable (f : Span → Span)

theorem Literal.span_respan (l : Literal) : (l.respan f).span = f l.span := by
  cases l with
  | string s =>
    cases s
    rw [Literal.respan, StringLiteral.respan]
    rfl
  | _ =>
    rw [Literal.respan]
    rfl

private theorem Run.span_respan (r : Run) : (r.respan f).span = f r.span := by
  cases r <;> simp only [Run.respan, Run.span]

theorem Expr.span_respan (e : Expr) : (e.respan f).span = f e.span := by
  cases e with
  | literal l =>
    rw [Expr.respan]
    exact l.span_respan f
  | run r =>
    rw [Expr.respan]
    exact r.span_respan f
  | object o =>
    cases o
    rw [Expr.respan, Object.respan]
    rfl
  | block b =>
    cases b
    rw [Expr.respan, Block.respan]
    rfl
  | conditional c =>
    cases c
    simp only [Expr.respan, Conditional.respan, Expr.span]
  | choice c =>
    cases c
    rw [Expr.respan, Choice.respan]
    rfl
  | emit s format args => cases args <;> simp only [Expr.respan, Expr.span]
  | _ =>
    simp only [Expr.respan, Expr.span]
    try rfl

theorem Pattern.span_respan (p : Pattern) : (p.respan f).span = f p.span := by
  cases p with
  | literal l =>
    rw [Pattern.respan]
    exact l.span_respan f
  | _ =>
    simp only [Pattern.respan, Pattern.span]
    try rfl

end Spans

def Span.nowhere : Span := .point 0

def Expr.bare (e : Expr) : Expr := e.respan fun _ => .nowhere

end ApiScript
