import ApiScript.Diagnostic
import ApiScript.Proofs.Spans.Respan
import ApiScript.Token

set_option autoImplicit false
set_option relaxedAutoImplicit false

/-!
Values with places: what a function of spans makes of tokens, diagnostics and all parts of trees.
-/

namespace ApiScript

def Token.respan (f : Span → Span) (t : Token) : Token := ⟨t.lexeme, f t.span⟩

def Problem.respan (f : Span → Span) : Problem → Problem
  | .unclosed delimiter list found opener => .unclosed delimiter list found (f opener)
  | p => p

def Diagnostic.respan (f : Span → Span) (d : Diagnostic) : Diagnostic :=
  ⟨d.problem.respan f, f d.span⟩

def StringPart.respan (f : Span → Span) : StringPart → StringPart
  | .text value => .text value
  | .code e => .code (e.respan f)

theorem StringPart.respanAll_eq_map (f : Span → Span) (parts : List StringPart) :
    StringPart.respanAll f parts = parts.map (StringPart.respan f) := by
  induction parts with
  | nil => rw [StringPart.respanAll, List.map_nil]
  | cons part parts ih =>
    cases part <;>
    · rw [StringPart.respanAll, ih]
      rfl

section Optional

variable (f : Span → Span) (s : Span) (n n' : Name)

theorem Expr.respan_range (start stop : Option Literal) (inclusive : Bool) :
    (Expr.range s start stop inclusive).respan f =
      .range (f s) (start.map (Literal.respan f)) (stop.map (Literal.respan f)) inclusive := by
  cases start <;> cases stop <;> simp [Expr.respan]

theorem Expr.respan_emit (format : Option Name) (args : Option (List Expr)) :
    (Expr.emit s format args).respan f =
      .emit (f s) (format.map (Name.respan f)) (args.map (List.map (Expr.respan f))) := by
  cases args <;> simp [Expr.respan, Expr.respanAll_eq_map]

theorem Pattern.respan_range (start stop : Option Literal) (inclusive : Bool) :
    (Pattern.range s start stop inclusive).respan f =
      .range (f s) (start.map (Literal.respan f)) (stop.map (Literal.respan f)) inclusive := by
  cases start <;> cases stop <;> simp [Pattern.respan]

theorem FieldPattern.respan_mk (pattern : Option Pattern) :
    (FieldPattern.mk n pattern s).respan f = ⟨n.respan f, pattern.map (Pattern.respan f), f s⟩ := by
  cases pattern <;> simp [FieldPattern.respan]

theorem Decl.respan_operation (protocol method : Name) (target : StringLiteral)
    (query : Option StringLiteral) (metadata : Option Object) :
    (Decl.operation s n protocol method target query metadata).respan f =
      .operation (f s) (n.respan f) (protocol.respan f) (method.respan f) (target.respan f)
        (query.map (StringLiteral.respan f)) (metadata.map (Object.respan f)) := by
  cases query <;> cases metadata <;> simp [Decl.respan]

theorem Decl.respan_use (target : UseTarget) (body : Option Block) :
    (Decl.use s target body).respan f = .use (f s) (target.respan f)
    (body.map (Block.respan f)) := by
  cases body <;> simp [Decl.respan]

theorem Conditional.respan_mk (condition : Expr) (consequence : Block)
    (alternative : Option Alternative) :
    (Conditional.mk condition consequence alternative s).respan f =
      ⟨condition.respan f, consequence.respan f, alternative.map (Alternative.respan f), f s⟩ := by
  cases alternative <;> simp [Conditional.respan]

theorem Arm.respan_mk (pattern : Pattern) (guard : Option Expr) (body : Expr) :
    (Arm.mk pattern guard body s).respan f =
      ⟨pattern.respan f, guard.map (Expr.respan f), body.respan f, f s⟩ := by
  cases guard <;> simp [Arm.respan]

theorem Run.respan_inline (args : Option Object) (variations : Option Variations) :
    (Run.inline s n args variations).respan f =
      .inline (f s) (n.respan f) (args.map (Object.respan f))
        (variations.map (Variations.respan f)) := by
  cases args <;> cases variations <;> simp [Run.respan]

theorem RunItem.respan_step (args : Option Object) :
    (RunItem.step s n n' args).respan f = .step (f s) (n.respan f) (n'.respan f)
    (args.map (Object.respan f)) := by
  cases args <;> simp [RunItem.respan]

end Optional

/-- Values that spans are part of. -/
class Placed (α : Type) where
  /-- The value with what a function makes of each of its spans. -/
  respan : (Span → Span) → α → α

namespace Placed

variable {α β : Type}

instance : Placed Unit := ⟨fun _ a => a⟩
instance : Placed Bool := ⟨fun _ b => b⟩
instance : Placed Span := ⟨fun f s => f s⟩
instance : Placed Token := ⟨Token.respan⟩
instance : Placed Diagnostic := ⟨Diagnostic.respan⟩
instance : Placed Name := ⟨Name.respan⟩
instance : Placed Expr := ⟨Expr.respan⟩
instance : Placed Literal := ⟨Literal.respan⟩
instance : Placed StringLiteral := ⟨StringLiteral.respan⟩
instance : Placed StringPart := ⟨StringPart.respan⟩
instance : Placed Object := ⟨Object.respan⟩
instance : Placed Field := ⟨Field.respan⟩
instance : Placed Key := ⟨Key.respan⟩
instance : Placed Block := ⟨Block.respan⟩
instance : Placed Item := ⟨Item.respan⟩
instance : Placed Decl := ⟨Decl.respan⟩
instance : Placed Body := ⟨Body.respan⟩
instance : Placed UseTarget := ⟨UseTarget.respan⟩
instance : Placed Pattern := ⟨Pattern.respan⟩
instance : Placed FieldPattern := ⟨FieldPattern.respan⟩
instance : Placed Conditional := ⟨Conditional.respan⟩
instance : Placed Alternative := ⟨Alternative.respan⟩
instance : Placed Choice := ⟨Choice.respan⟩
instance : Placed Arm := ⟨Arm.respan⟩
instance : Placed Run := ⟨Run.respan⟩
instance : Placed RunItem := ⟨RunItem.respan⟩
instance : Placed Variations := ⟨Variations.respan⟩
instance [Placed α] : Placed (List α) := ⟨fun f as => as.map (respan f)⟩
instance [Placed α] : Placed (Option α) := ⟨fun f a => a.map (respan f)⟩
instance [Placed α] [Placed β] : Placed (α × β) := ⟨fun f p => (respan f p.1, respan f p.2)⟩

end Placed

end ApiScript
