import ApiScript.Proofs.Spelling.Mark
import ApiScript.Tree.Node

set_option autoImplicit false
set_option relaxedAutoImplicit false

/-!
The marks of a tree: each node's own tokens and those of its parts, in the order written.
-/

namespace ApiScript

open Mark

def Name.marks (n : Name) (follow : Follow) : List Mark :=
  [.node n.span [.lexeme (.identifier n.text) follow]]

def Name.stepMarks (n : Name) : List Mark := [.node n.span [plain n.lexeme]]

def Name.marksEach (ns : List Name) : List (List Mark) := ns.map (·.marks .any)

def UnaryOp.follow : UnaryOp → Follow
  | .not => .any
  | .neg => .unsigned

def Decl.open_ : Decl → Bool
  | .binding _ _ _ | .function _ _ _ (.expr _) | .use _ (.expr _) none => true
  | _ => false

def Item.open_ : Item → Bool
  | .decl d => d.open_
  | .expr _ => true

def RunItem.open_ : RunItem → Bool
  | .decl d => d.open_
  | _ => false

mutual

def Expr.marks : Expr → List Mark
  | .pipe s left right => [.node s (left.marks ++ [symbol .pipe] ++ right.marks)]
  | .binary s op left right => [.node s (left.marks ++ [plain op.lexeme] ++ right.marks)]
  | .unary s op operand => [.node s (.lexeme op.lexeme op.follow :: operand.marks)]
  | .call s callee args =>
    [.node s (callee.marks ++ listed .leftParen .rightParen false (Expr.marksEach args))]
  | .member s object field => [.node s (object.marks ++ [symbol .dot] ++ field.marks .any)]
  | .index s object index =>
    [.node s (object.marks ++ [symbol .leftBracket] ++ index.marks ++ [symbol .rightBracket])]
  | .literal l => [.node l.span l.marks]
  | .name n => [.node n.span (n.marks .any)]
  | .env s n => [.node s ([keyword .env, symbol .dot] ++ n.marks .any)]
  | .paren s inner => [.node s ([symbol .leftParen] ++ inner.marks ++ [symbol .rightParen])]
  | .array s elements =>
    [.node s (listed .leftBracket .rightBracket true (Expr.marksEach elements))]
  | .object o => [.node o.span o.marks]
  | .block b => [.node b.span b.marks]
  | .conditional c => [.node c.span c.marks]
  | .choice c => [.node c.span c.marks]
  | .lambda s params body =>
    [.node s ((if params.isEmpty then [.bars] else
      listed .bar .bar false (Name.marksEach params)) ++ body.marks)]
  | .run r => [.node r.span r.marks]
  | .emit s none none => [.node s [.lexeme (.keyword .emit) .bare]]
  | .emit s none (some args) =>
    [.node s (keyword .emit :: listed .leftParen .rightParen false (Expr.marksEach args))]
  | .emit s (some format) none =>
    [.node s ([.lexeme (.keyword .emit) .joined, symbol .dot] ++ format.marks .unapplied)]
  | .emit s (some format) (some args) =>
    [.node s ([.lexeme (.keyword .emit) .joined, symbol .dot] ++ format.marks .joined ++
      listed .leftParen .rightParen false (Expr.marksEach args))]
  | .range s start stop inclusive =>
    [.node s ((match start with
        | none => []
        | some l => l.marks) ++
      (match stop with
        | none => [Mark.rangeMark inclusive .noInteger]
        | some l => Mark.rangeMark inclusive .any :: l.marks))]

def Expr.marksEach : List Expr → List (List Mark)
  | [] => []
  | e :: es => e.marks :: Expr.marksEach es

def Literal.marks : Literal → List Mark
  | .null s => [.node s [keyword .null]]
  | .bool s value => [.node s [keyword (if value then .true_ else .false_)]]
  | .integer s raw _ => [.node s (number .integer raw)]
  | .float s raw _ => [.node s (number .float raw)]
  | .duration s raw _ _ => [.node s (number .duration raw)]
  | .size s raw _ _ => [.node s (number .size raw)]
  | .string s => [.node s.span s.marks]
  | .bytes s value => [.node s [.bytes value]]

def StringLiteral.marks : StringLiteral → List Mark
  | ⟨quote, parts, s⟩ => [.node s [.quoted quote (StringPart.marksEach parts)]]

def StringPart.marksEach : List StringPart → List Part
  | [] => []
  | .text text :: parts => .text text :: StringPart.marksEach parts
  | .code e :: parts => .code e.marks :: StringPart.marksEach parts

def Object.marks : Object → List Mark
  | ⟨fields, s⟩ => [.node s (listed .leftBrace .rightBrace true (Field.marksEach fields))]

def Field.marksEach : List Field → List (List Mark)
  | [] => []
  | field :: fields => field.marks :: Field.marksEach fields

def Field.marks : Field → List Mark
  | ⟨key, value, s⟩ => [.node s (key.marks ++ [symbol .colon] ++ value.marks)]

def Key.marks : Key → List Mark
  | .name n => n.marks .any
  | .string s => s.marks

def Block.marks : Block → List Mark
  | ⟨items, s⟩ =>
    [.node s ([symbol .leftBrace, .seam false] ++ Item.marksAll items ++ [symbol .rightBrace])]

/-- The marks of statements, each with its end. -/
def Item.marksAll : List Item → List Mark
  | [] => []
  | item :: items => item.marks ++ [.seam item.open_] ++ Item.marksAll items

def Item.marks : Item → List Mark
  | .decl d => [.node d.span d.marks]
  | .expr e => [.node e.span e.marks]

def Decl.marks : Decl → List Mark
  | .operation s n protocol method target query metadata =>
    [.node s ([keyword .op] ++ n.marks .any ++ [symbol .assign] ++ protocol.marks .any ++
      [symbol .dot] ++
      method.marks .any ++ target.marks ++
      (match query with
        | none => []
        | some q => q.marks) ++
      (match metadata with
        | none => []
        | some o => o.marks))]
  | .profile s n fields => [.node s ([keyword .profile] ++ n.marks .any ++ fields.marks)]
  | .function s n params body =>
    [.node s ([keyword .fn] ++ n.marks .any ++ listed .leftParen .rightParen false
      (Name.marksEach params) ++
      body.marks)]
  | .binding s pattern value =>
    [.node s ([keyword .let_] ++ pattern.marks ++ [symbol .assign] ++ value.marks)]
  | .use s target body =>
    [.node s ([keyword .use] ++ target.marks ++
      (match body with
        | none => []
        | some b => b.marks))]

def Body.marks : Body → List Mark
  | .block b => b.marks
  | .expr e => symbol .assign :: e.marks

def UseTarget.marks : UseTarget → List Mark
  | .glob path => separated .scope (Name.marksEach path) ++ [symbol .scope, symbol .star]
  | .group path names =>
    separated .scope (Name.marksEach path) ++ [symbol .scope] ++
      listed .leftBrace .rightBrace false (Name.marksEach names)
  | .path path => separated .scope (Name.marksEach path)
  | .expr e => e.marks

def Pattern.marks : Pattern → List Mark
  | .name n => [.node n.span (n.marks .any)]
  | .wildcard s => [.node s [plain (.identifier "_")]]
  | .literal l => [.node l.span l.marks]
  | .array s elements =>
    [.node s (listed .leftBracket .rightBracket true (Pattern.marksEach elements))]
  | .object s fields =>
    [.node s (listed .leftBrace .rightBrace true (FieldPattern.marksEach fields))]
  | .range s start stop inclusive =>
    [.node s ((match start with
        | none => []
        | some l => l.marks) ++
      (match stop with
        | none => [Mark.rangeMark inclusive .noLiteral]
        | some l => Mark.rangeMark inclusive .any :: l.marks))]

def Pattern.marksEach : List Pattern → List (List Mark)
  | [] => []
  | p :: ps => p.marks :: Pattern.marksEach ps

def FieldPattern.marksEach : List FieldPattern → List (List Mark)
  | [] => []
  | field :: fields => field.marks :: FieldPattern.marksEach fields

def FieldPattern.marks : FieldPattern → List Mark
  | ⟨key, pattern, s⟩ =>
    [.node s (key.marks .any ++
      (match pattern with
        | none => []
        | some p => symbol .colon :: p.marks))]

def Conditional.marks : Conditional → List Mark
  | ⟨condition, consequence, alternative, s⟩ =>
    [.node s ([keyword .if_] ++ condition.marks ++ consequence.marks ++
      (match alternative with
        | none => []
        | some (.block b) => keyword .else_ :: b.marks
        | some (.conditional c) => keyword .else_ :: c.marks))]

def Choice.marks : Choice → List Mark
  | ⟨subject, arms, s⟩ =>
    [.node s ([keyword .match_] ++ subject.marks ++ listed .leftBrace .rightBrace true
      (Arm.marksEach arms))]

def Arm.marksEach : List Arm → List (List Mark)
  | [] => []
  | arm :: arms => arm.marks :: Arm.marksEach arms

def Arm.marks : Arm → List Mark
  | ⟨pattern, guard, body, s⟩ =>
    [.node s (pattern.marks ++
      (match guard with
        | none => []
        | some g => keyword .if_ :: g.marks) ++
      [symbol .fatArrow] ++ body.marks)]

def Run.marks : Run → List Mark
  | .inline s target args variations =>
    [.node s ([keyword .run] ++ target.marks .any ++
      (match args with
        | none => []
        | some o => o.marks) ++
      (match variations with
        | none => []
        | some v => v.marks))]
  | .block s items =>
    [.node s ([keyword .run, symbol .leftBrace, .seam false] ++ RunItem.marksAll items ++
      [symbol .rightBrace])]

def RunItem.marksAll : List RunItem → List Mark
  | [] => []
  | item :: items => item.marks ++ [.seam item.open_] ++ RunItem.marksAll items

def Variations.marks : Variations → List Mark
  | ⟨.product, axes, s⟩ => [.node s (keyword .with_ :: axes.marks)]
  | ⟨.zip, axes, s⟩ => [.node s ([keyword .with_, keyword .zip] ++ axes.marks)]

def RunItem.marks : RunItem → List Mark
  | .step s n operation args =>
    [.node s (n.stepMarks ++ [symbol .colon] ++ operation.marks .any ++
      (match args with
        | none => []
        | some o => o.marks))]
  | .path s chain =>
    [.node s ([keyword .path, symbol .colon] ++ separated .arrow (Name.marksEach chain))]
  | .decl d => [.node d.span d.marks]

end

def Mark.IsNode (span : Span) (ms : List Mark) : Prop := ∃ body, ms = [.node span body]

theorem Name.marks_isNode (n : Name) (follow : Follow) : IsNode n.span (n.marks follow) := ⟨_, rfl⟩

theorem Expr.marks_isNode (e : Expr) : IsNode e.span e.marks := by
  cases e with
  | emit s format args =>
    cases format <;> cases args <;>
    · rw [Expr.marks]
      exact ⟨_, rfl⟩
  | _ =>
    rw [Expr.marks.eq_def]
    exact ⟨_, rfl⟩

theorem Literal.marks_isNode (l : Literal) : IsNode l.span l.marks := by
  cases l <;>
  · rw [Literal.marks]
    exact ⟨_, rfl⟩

theorem StringLiteral.marks_isNode (l : StringLiteral) : IsNode l.span l.marks := by
  cases l
  rw [StringLiteral.marks]
  exact ⟨_, rfl⟩

theorem Object.marks_isNode (o : Object) : IsNode o.span o.marks := by
  cases o
  rw [Object.marks]
  exact ⟨_, rfl⟩

theorem Key.marks_isNode (k : Key) : IsNode k.span k.marks := by
  cases k with
  | name n =>
    rw [Key.marks]
    exact n.marks_isNode .any
  | string l =>
    rw [Key.marks]
    exact l.marks_isNode

theorem Block.marks_isNode (b : Block) : IsNode b.span b.marks := by
  cases b
  rw [Block.marks]
  exact ⟨_, rfl⟩

theorem Decl.marks_isNode (d : Decl) : IsNode d.span d.marks := by
  cases d <;>
  · rw [Decl.marks.eq_def]
    exact ⟨_, rfl⟩

theorem Pattern.marks_isNode (p : Pattern) : IsNode p.span p.marks := by
  cases p <;>
  · rw [Pattern.marks.eq_def]
    exact ⟨_, rfl⟩

theorem Conditional.marks_isNode (c : Conditional) : IsNode c.span c.marks := by
  cases c
  rw [Conditional.marks.eq_def]
  exact ⟨_, rfl⟩

theorem Choice.marks_isNode (c : Choice) : IsNode c.span c.marks := by
  cases c
  rw [Choice.marks]
  exact ⟨_, rfl⟩

theorem Run.marks_isNode (r : Run) : IsNode r.span r.marks := by
  cases r <;>
  · rw [Run.marks.eq_def]
    exact ⟨_, rfl⟩

theorem Variations.marks_isNode (v : Variations) : IsNode v.span v.marks := by
  obtain ⟨mode, axes, s⟩ := v
  cases mode <;>
  · rw [Variations.marks]
    exact ⟨_, rfl⟩

theorem Expr.marksEach_eq_map (es : List Expr) : Expr.marksEach es = es.map Expr.marks := by
  induction es with
  | nil => rfl
  | cons e es ih => rw [Expr.marksEach, ih, List.map_cons]

theorem Field.marksEach_eq_map (fs : List Field) : Field.marksEach fs = fs.map Field.marks := by
  induction fs with
  | nil => rfl
  | cons f fs ih => rw [Field.marksEach, ih, List.map_cons]

theorem Pattern.marksEach_eq_map (ps : List Pattern) :
    Pattern.marksEach ps = ps.map Pattern.marks := by
  induction ps with
  | nil => rfl
  | cons p ps ih => rw [Pattern.marksEach, ih, List.map_cons]

theorem FieldPattern.marksEach_eq_map (fs : List FieldPattern) :
    FieldPattern.marksEach fs = fs.map FieldPattern.marks := by
  induction fs with
  | nil => rfl
  | cons f fs ih => rw [FieldPattern.marksEach, ih, List.map_cons]

theorem Arm.marksEach_eq_map (arms : List Arm) : Arm.marksEach arms = arms.map Arm.marks := by
  induction arms with
  | nil => rfl
  | cons a arms ih => rw [Arm.marksEach, ih, List.map_cons]

theorem Item.marksAll_eq_flatMap (items : List Item) :
    Item.marksAll items = items.flatMap fun i => i.marks ++ [.seam i.open_] := by
  induction items with
  | nil => rfl
  | cons i items ih => rw [Item.marksAll, ih, List.flatMap_cons]

theorem RunItem.marksAll_eq_flatMap (items : List RunItem) :
    RunItem.marksAll items = items.flatMap fun i => i.marks ++ [.seam i.open_] := by
  induction items with
  | nil => rfl
  | cons i items ih => rw [RunItem.marksAll, ih, List.flatMap_cons]

def Program.marks (p : Program) : List Mark := .seam false :: Item.marksAll p.items

end ApiScript
