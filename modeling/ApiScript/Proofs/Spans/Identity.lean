import ApiScript.Proofs.Spans.Placed

set_option autoImplicit false
set_option relaxedAutoImplicit false

/-!
Trees whose spans are left as they are. The identity on spans is that on trees, node by node.
-/

namespace ApiScript

@[simp]
theorem Name.respan_id (n : Name) : n.respan id = n := rfl

@[simp]
theorem Name.map_respan_id (ns : List Name) : ns.map (Name.respan id) = ns := List.map_id ns

theorem Token.map_respan_id (ts : List Token) : ts.map (Token.respan id) = ts := List.map_id ts

theorem Diagnostic.map_respan_id (ds : List Diagnostic) : ds.map (Diagnostic.respan id) = ds := by
  refine (List.map_congr_left fun d _ => ?_).trans (List.map_id ds)
  obtain ⟨problem, span⟩ := d
  cases problem <;> rfl

mutual

theorem Expr.respan_id : (e : Expr) → e.respan id = e
  | .pipe s left right => by simp only [Expr.respan, left.respan_id, right.respan_id, id_eq]
  | .binary s op left right => by simp only [Expr.respan, left.respan_id, right.respan_id, id_eq]
  | .unary s op operand => by simp only [Expr.respan, operand.respan_id, id_eq]
  | .call s callee
    args => by simp only [Expr.respan, callee.respan_id, Expr.respanAll_id args, id_eq]
  | .member s object field => by simp only [Expr.respan, object.respan_id, Name.respan_id, id_eq]
  | .index s object index => by simp only [Expr.respan, object.respan_id, index.respan_id, id_eq]
  | .literal l => by simp only [Expr.respan, l.respan_id]
  | .name n => by simp only [Expr.respan, Name.respan_id]
  | .env s n => by simp only [Expr.respan, Name.respan_id, id_eq]
  | .paren s inner => by simp only [Expr.respan, inner.respan_id, id_eq]
  | .array s elements => by simp only [Expr.respan, Expr.respanAll_id elements, id_eq]
  | .object o => by simp only [Expr.respan, o.respan_id]
  | .block b => by simp only [Expr.respan, b.respan_id]
  | .conditional c => by simp only [Expr.respan, c.respan_id]
  | .choice c => by simp only [Expr.respan, c.respan_id]
  | .lambda s params body => by simp only [Expr.respan, Name.map_respan_id, body.respan_id, id_eq]
  | .run r => by simp only [Expr.respan, r.respan_id]
  | .emit s format
    none => by cases format <;> simp only [Expr.respan, Option.map, Name.respan_id, id_eq]
  | .emit s format (some args) => by
    cases format <;>
      simp only [Expr.respan, Option.map, Name.respan_id, Expr.respanAll_id args, id_eq]
  | .range s none none inclusive => by simp only [Expr.respan, id_eq]
  | .range s (some start) none inclusive => by simp only [Expr.respan, start.respan_id, id_eq]
  | .range s none (some stop) inclusive => by simp only [Expr.respan, stop.respan_id, id_eq]
  | .range s (some start)
    (some stop) inclusive => by simp only [Expr.respan, start.respan_id, stop.respan_id, id_eq]

private theorem Expr.respanAll_id : (es : List Expr) → Expr.respanAll id es = es
  | [] => by rw [Expr.respanAll]
  | e :: es => by rw [Expr.respanAll, e.respan_id, Expr.respanAll_id es]

private theorem Literal.respan_id : (l : Literal) → l.respan id = l
  | .string s => by rw [Literal.respan, s.respan_id]
  | .null s | .bool s _ | .integer s _ _ | .float s _ _ | .duration s _ _ _ | .size s _ _ _
  | .bytes s _ => by
    rw [Literal.respan, id]

private theorem StringLiteral.respan_id : (l : StringLiteral) → l.respan id = l
  | ⟨quote, parts, s⟩ => by rw [StringLiteral.respan, StringPart.respanAll_id parts, id]

private theorem StringPart.respanAll_id :
    (parts : List StringPart) → StringPart.respanAll id parts = parts
  | [] => by rw [StringPart.respanAll]
  | .text text :: parts => by rw [StringPart.respanAll, StringPart.respanAll_id parts]
  | .code e :: parts => by rw [StringPart.respanAll, e.respan_id, StringPart.respanAll_id parts]

private theorem Object.respan_id : (o : Object) → o.respan id = o
  | ⟨fields, s⟩ => by rw [Object.respan, Field.respanAll_id fields, id]

private theorem Field.respanAll_id : (fields : List Field) → Field.respanAll id fields = fields
  | [] => by rw [Field.respanAll]
  | field :: fields => by rw [Field.respanAll, field.respan_id, Field.respanAll_id fields]

private theorem Field.respan_id : (field : Field) → field.respan id = field
  | ⟨key, value, s⟩ => by rw [Field.respan, key.respan_id, value.respan_id, id]

private theorem Key.respan_id : (k : Key) → k.respan id = k
  | .name n => by rw [Key.respan, Name.respan_id]
  | .string s => by rw [Key.respan, s.respan_id]

private theorem Block.respan_id : (b : Block) → b.respan id = b
  | ⟨items, s⟩ => by rw [Block.respan, Item.respanAll_id items, id]

theorem Item.respanAll_id : (items : List Item) → Item.respanAll id items = items
  | [] => by rw [Item.respanAll]
  | item :: items => by rw [Item.respanAll, item.respan_id, Item.respanAll_id items]

private theorem Item.respan_id : (item : Item) → item.respan id = item
  | .decl d => by rw [Item.respan, d.respan_id]
  | .expr e => by rw [Item.respan, e.respan_id]

private theorem Decl.respan_id : (d : Decl) → d.respan id = d
  | .operation s n protocol method target none none => by
    simp only [Decl.respan, Name.respan_id, target.respan_id, id_eq]
  | .operation s n protocol method target (some query) none => by
    simp only [Decl.respan, Name.respan_id, target.respan_id, query.respan_id, id_eq]
  | .operation s n protocol method target none (some metadata) => by
    simp only [Decl.respan, Name.respan_id, target.respan_id, metadata.respan_id, id_eq]
  | .operation s n protocol method target (some query) (some metadata) => by
    simp only [Decl.respan, Name.respan_id, target.respan_id, query.respan_id, metadata.respan_id,
      id_eq]
  | .profile s n fields => by simp only [Decl.respan, Name.respan_id, fields.respan_id, id_eq]
  | .function s n params body => by
    simp only [Decl.respan, Name.respan_id, Name.map_respan_id, body.respan_id, id_eq]
  | .binding s pattern
    value => by simp only [Decl.respan, pattern.respan_id, value.respan_id, id_eq]
  | .use s target none => by simp only [Decl.respan, target.respan_id, id_eq]
  | .use s target (some body) => by simp only [Decl.respan, target.respan_id, body.respan_id, id_eq]

private theorem Body.respan_id : (body : Body) → body.respan id = body
  | .block b => by rw [Body.respan, b.respan_id]
  | .expr e => by rw [Body.respan, e.respan_id]

private theorem UseTarget.respan_id : (target : UseTarget) → target.respan id = target
  | .glob path => by rw [UseTarget.respan, Name.map_respan_id]
  | .group path names => by rw [UseTarget.respan, Name.map_respan_id, Name.map_respan_id]
  | .path path => by rw [UseTarget.respan, Name.map_respan_id]
  | .expr e => by rw [UseTarget.respan, e.respan_id]

private theorem Pattern.respan_id : (p : Pattern) → p.respan id = p
  | .name n => by rw [Pattern.respan, Name.respan_id]
  | .wildcard s => by rw [Pattern.respan, id]
  | .literal l => by rw [Pattern.respan, l.respan_id]
  | .array s elements => by rw [Pattern.respan, Pattern.respanAll_id elements, id]
  | .object s fields => by rw [Pattern.respan, FieldPattern.respanAll_id fields, id]
  | .range s none none inclusive => by simp only [Pattern.respan, id_eq]
  | .range s (some start) none inclusive => by simp only [Pattern.respan, start.respan_id, id_eq]
  | .range s none (some stop) inclusive => by simp only [Pattern.respan, stop.respan_id, id_eq]
  | .range s (some start) (some stop) inclusive => by
    simp only [Pattern.respan, start.respan_id, stop.respan_id, id_eq]

private theorem Pattern.respanAll_id : (ps : List Pattern) → Pattern.respanAll id ps = ps
  | [] => by rw [Pattern.respanAll]
  | p :: ps => by rw [Pattern.respanAll, p.respan_id, Pattern.respanAll_id ps]

private theorem FieldPattern.respanAll_id :
    (fields : List FieldPattern) → FieldPattern.respanAll id fields = fields
  | [] => by rw [FieldPattern.respanAll]
  | field :: fields => by
    rw [FieldPattern.respanAll, field.respan_id, FieldPattern.respanAll_id fields]

private theorem FieldPattern.respan_id : (field : FieldPattern) → field.respan id = field
  | ⟨key, none, s⟩ => by simp only [FieldPattern.respan, Name.respan_id, id_eq]
  | ⟨key, some p, s⟩ => by simp only [FieldPattern.respan, Name.respan_id, p.respan_id, id_eq]

private theorem Conditional.respan_id : (c : Conditional) → c.respan id = c
  | ⟨condition, consequence, none, s⟩ => by
    simp only [Conditional.respan, condition.respan_id, consequence.respan_id, id_eq]
  | ⟨condition, consequence, some alternative, s⟩ => by
    simp only [Conditional.respan, condition.respan_id, consequence.respan_id,
      alternative.respan_id, id_eq]

private theorem Alternative.respan_id : (a : Alternative) → a.respan id = a
  | .block b => by rw [Alternative.respan, b.respan_id]
  | .conditional c => by rw [Alternative.respan, c.respan_id]

private theorem Choice.respan_id : (c : Choice) → c.respan id = c
  | ⟨subject, arms, s⟩ => by rw [Choice.respan, subject.respan_id, Arm.respanAll_id arms, id]

private theorem Arm.respanAll_id : (arms : List Arm) → Arm.respanAll id arms = arms
  | [] => by rw [Arm.respanAll]
  | arm :: arms => by rw [Arm.respanAll, arm.respan_id, Arm.respanAll_id arms]

private theorem Arm.respan_id : (arm : Arm) → arm.respan id = arm
  | ⟨pattern, none, body, s⟩ => by simp only [Arm.respan, pattern.respan_id, body.respan_id, id_eq]
  | ⟨pattern, some guard, body, s⟩ => by
    simp only [Arm.respan, pattern.respan_id, guard.respan_id, body.respan_id, id_eq]

private theorem Run.respan_id : (r : Run) → r.respan id = r
  | .inline s target none none => by simp only [Run.respan, Name.respan_id, id_eq]
  | .inline s target
    (some args) none => by simp only [Run.respan, Name.respan_id, args.respan_id, id_eq]
  | .inline s target none (some variations) => by
    simp only [Run.respan, Name.respan_id, variations.respan_id, id_eq]
  | .inline s target (some args) (some variations) => by
    simp only [Run.respan, Name.respan_id, args.respan_id, variations.respan_id, id_eq]
  | .block s items => by rw [Run.respan, RunItem.respanAll_id items, id]

private theorem RunItem.respanAll_id : (items : List RunItem) → RunItem.respanAll id items = items
  | [] => by rw [RunItem.respanAll]
  | item :: items => by rw [RunItem.respanAll, item.respan_id, RunItem.respanAll_id items]

private theorem Variations.respan_id : (v : Variations) → v.respan id = v
  | ⟨mode, axes, s⟩ => by rw [Variations.respan, axes.respan_id, id]

private theorem RunItem.respan_id : (item : RunItem) → item.respan id = item
  | .step s n operation none => by simp only [RunItem.respan, Name.respan_id, id_eq]
  | .step s n operation
    (some args) => by simp only [RunItem.respan, Name.respan_id, args.respan_id, id_eq]
  | .path s chain => by rw [RunItem.respan, Name.map_respan_id, id]
  | .decl d => by rw [RunItem.respan, d.respan_id]

end

end ApiScript
