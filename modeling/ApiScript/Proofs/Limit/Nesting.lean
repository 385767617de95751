import ApiScript.Tree.Basic

set_option autoImplicit false
set_option relaxedAutoImplicit false

/-!
The nesting of a tree: the number of levels on its deepest path. A level begins with an expression
in a place of its own, an operand of a unary operator, an `if` behind an `else`, a block that is no
expression, and a pattern. The operands of binary operators and pipes, and what is written in front
of an access, a call or an index, stay on the level of the whole.
-/

namespace ApiScript

/-- The highest of the numbers that are made of the elements, which is zero where there are none. -/
def highest {α : Type} (cost : α → Nat) (as : List α) : Nat :=
  as.foldr (fun a n => max (cost a) n) 0

theorem highest_cons {α : Type} {cost : α → Nat} (a : α) (as : List α) :
    highest cost (a :: as) = max (cost a) (highest cost as) := rfl

theorem le_highest {α : Type} {cost : α → Nat} {a : α} {as : List α} (h : a ∈ as) :
    cost a ≤ highest cost as := by
  induction as with
  | nil => cases h
  | cons b as ih =>
    rw [highest_cons]
    rcases List.mem_cons.1 h with rfl | h
    · exact Nat.le_max_left _ _
    · exact Nat.le_trans (ih h) (Nat.le_max_right _ _)

mutual

/-- The levels below the one an expression is on. -/
def Expr.nesting : Expr → Nat
  | .pipe _ left right | .binary _ _ left right => max left.nesting right.nesting
  | .unary _ _ operand => operand.nesting + 1
  | .call _ callee args => max callee.nesting (Expr.nestingEach args)
  | .member _ object _ => object.nesting
  | .index _ object index => max object.nesting (index.nesting + 1)
  | .literal l => l.nesting
  | .name _ | .env _ _ => 0
  | .paren _ inner => inner.nesting + 1
  | .array _ elements => Expr.nestingEach elements
  | .object o => o.nesting
  | .block b => b.nesting
  | .conditional c => c.nesting
  | .choice c => c.nesting
  | .lambda _ _ body => body.nesting + 1
  | .run r => r.nesting
  | .emit _ _ none => 0
  | .emit _ _ (some args) => Expr.nestingEach args
  | .range _ start stop _ =>
    max
      (match start with
        | none => 0
        | some l => l.nesting)
      (match stop with
        | none => 0
        | some l => l.nesting)

def Expr.nestingEach : List Expr → Nat
  | [] => 0
  | e :: es => max (e.nesting + 1) (Expr.nestingEach es)

def Literal.nesting : Literal → Nat
  | .string s => s.nesting
  | .null _ | .bool _ _ | .integer _ _ _ | .float _ _ _ | .duration _ _ _ _ | .size _ _ _ _
  | .bytes _ _ => 0

def StringLiteral.nesting : StringLiteral → Nat
  | ⟨_, parts, _⟩ => StringPart.nestingAll parts

def StringPart.nestingAll : List StringPart → Nat
  | [] => 0
  | .text _ :: parts => StringPart.nestingAll parts
  | .code e :: parts => max (e.nesting + 1) (StringPart.nestingAll parts)

def Object.nesting : Object → Nat
  | ⟨fields, _⟩ => Field.nestingAll fields

def Field.nestingAll : List Field → Nat
  | [] => 0
  | field :: fields => max field.nesting (Field.nestingAll fields)

def Field.nesting : Field → Nat
  | ⟨key, value, _⟩ => max key.nesting (value.nesting + 1)

def Key.nesting : Key → Nat
  | .name _ => 0
  | .string s => s.nesting

def Block.nesting : Block → Nat
  | ⟨items, _⟩ => Item.nestingAll items

def Item.nestingAll : List Item → Nat
  | [] => 0
  | item :: items => max item.nesting (Item.nestingAll items)

def Item.nesting : Item → Nat
  | .decl d => d.nesting
  | .expr e => e.nesting + 1

def Decl.nesting : Decl → Nat
  | .operation _ _ _ _ target query metadata =>
    max target.nesting
      (max
        (match query with
          | none => 0
          | some q => q.nesting)
        (match metadata with
          | none => 0
          | some o => o.nesting))
  | .profile _ _ fields => fields.nesting
  | .function _ _ _ body => body.nesting
  | .binding _ pattern value => max (pattern.nesting + 1) (value.nesting + 1)
  | .use _ target body =>
    max target.nesting
      (match body with
        | none => 0
        | some b => b.nesting + 1)

def Body.nesting : Body → Nat
  | .block b => b.nesting + 1
  | .expr e => e.nesting + 1

def UseTarget.nesting : UseTarget → Nat
  | .glob _ | .group _ _ | .path _ => 0
  | .expr e => e.nesting + 1

def Pattern.nesting : Pattern → Nat
  | .name _ | .wildcard _ => 0
  | .literal l => l.nesting
  | .array _ elements => Pattern.nestingEach elements
  | .object _ fields => FieldPattern.nestingAll fields
  | .range _ start stop _ =>
    max
      (match start with
        | none => 0
        | some l => l.nesting)
      (match stop with
        | none => 0
        | some l => l.nesting)

def Pattern.nestingEach : List Pattern → Nat
  | [] => 0
  | p :: ps => max (p.nesting + 1) (Pattern.nestingEach ps)

def FieldPattern.nestingAll : List FieldPattern → Nat
  | [] => 0
  | field :: fields => max field.nesting (FieldPattern.nestingAll fields)

def FieldPattern.nesting : FieldPattern → Nat
  | ⟨_, pattern, _⟩ =>
    match pattern with
    | none => 0
    | some p => p.nesting + 1

def Conditional.nesting : Conditional → Nat
  | ⟨condition, consequence, alternative, _⟩ =>
    max (condition.nesting + 1)
      (max (consequence.nesting + 1)
        (match alternative with
          | none => 0
          | some a => a.nesting))

def Alternative.nesting : Alternative → Nat
  | .block b => b.nesting + 1
  | .conditional c => c.nesting + 1

def Choice.nesting : Choice → Nat
  | ⟨subject, arms, _⟩ => max (subject.nesting + 1) (Arm.nestingAll arms)

def Arm.nestingAll : List Arm → Nat
  | [] => 0
  | arm :: arms => max arm.nesting (Arm.nestingAll arms)

def Arm.nesting : Arm → Nat
  | ⟨pattern, guard, body, _⟩ =>
    max (pattern.nesting + 1)
      (max
        (match guard with
          | none => 0
          | some g => g.nesting + 1)
        (body.nesting + 1))

def Run.nesting : Run → Nat
  | .inline _ _ args variations =>
    max
      (match args with
        | none => 0
        | some o => o.nesting)
      (match variations with
        | none => 0
        | some v => v.nesting)
  | .block _ items => RunItem.nestingAll items

def RunItem.nestingAll : List RunItem → Nat
  | [] => 0
  | item :: items => max item.nesting (RunItem.nestingAll items)

def Variations.nesting : Variations → Nat
  | ⟨_, axes, _⟩ => axes.nesting

def RunItem.nesting : RunItem → Nat
  | .step _ _ _ args =>
    match args with
    | none => 0
    | some o => o.nesting
  | .path _ _ => 0
  | .decl d => d.nesting

end

def Program.nesting (p : Program) : Nat := Item.nestingAll p.items

section Lists

theorem Expr.nestingEach_eq (es : List Expr) :
    Expr.nestingEach es = highest (·.nesting + 1) es := by
  induction es with
  | nil => rfl
  | cons e es ih => rw [Expr.nestingEach, highest_cons, ih]

theorem Field.nestingAll_eq (fields : List Field) :
    Field.nestingAll fields = highest Field.nesting fields := by
  induction fields with
  | nil => rfl
  | cons field fields ih => rw [Field.nestingAll, highest_cons, ih]

theorem Item.nestingAll_eq (items : List Item) :
    Item.nestingAll items = highest Item.nesting items := by
  induction items with
  | nil => rfl
  | cons item items ih => rw [Item.nestingAll, highest_cons, ih]

theorem Pattern.nestingEach_eq (ps : List Pattern) :
    Pattern.nestingEach ps = highest (·.nesting + 1) ps := by
  induction ps with
  | nil => rfl
  | cons p ps ih => rw [Pattern.nestingEach, highest_cons, ih]

theorem FieldPattern.nestingAll_eq (fields : List FieldPattern) :
    FieldPattern.nestingAll fields = highest FieldPattern.nesting fields := by
  induction fields with
  | nil => rfl
  | cons field fields ih => rw [FieldPattern.nestingAll, highest_cons, ih]

theorem Arm.nestingAll_eq (arms : List Arm) : Arm.nestingAll arms = highest Arm.nesting arms := by
  induction arms with
  | nil => rfl
  | cons arm arms ih => rw [Arm.nestingAll, highest_cons, ih]

theorem RunItem.nestingAll_eq (items : List RunItem) :
    RunItem.nestingAll items = highest RunItem.nesting items := by
  induction items with
  | nil => rfl
  | cons item items ih => rw [RunItem.nestingAll, highest_cons, ih]

end Lists

end ApiScript
