import ApiScript.Proofs.Shape.Program
import ApiScript.Proofs.Shape.Throughout

set_option autoImplicit false
set_option relaxedAutoImplicit false
set_option synthInstance.maxSize 2000

/-!
A property of compound expressions holds throughout what is read, if the readers of expressions
bring it with their answers whenever the readers one level deeper do.
-/

namespace ApiScript

namespace Grammar

section Readers

variable {P : Node → Prop} [OfCompounds P] (inner : Inner) [∀ e, Brings P (inner e)]

section Literals

omit [OfCompounds P] in
instance (source : String) (offset : Nat) : Brings P (embedded inner source offset) where
  throughout h := by
    obtain ⟨finish, -, hwhole, -⟩ := reads_embedded.1 h
    exact (inferInstance : Brings P (inner .expression)).throughout
      (reads_wholeExpression.1 hwhole).2.1

omit [OfCompounds P] in
instance (segments : List Quoted.Segment) : Brings P (stringParts inner segments) := by
  induction segments with
  | nil => exact inferInstanceAs (Brings P (pure []))
  | cons segment segments ih =>
    cases segment with
    | text text =>
      unfold stringParts
      infer_instance
    | code source offset =>
      unfold stringParts
      infer_instance

instance (expected : Expectation) : Brings P (string inner expected) where
  throughout {s t l} h := by
    rcases reads_string h with ⟨_, _, _, _, _, hparts, hl, _⟩ | ⟨_, text, _, _, hl, _⟩
    · have : Throughout P l.parts := Brings.throughout hparts
      rw [hl]
      infer_instance
    · have : Throughout P (if text.isEmpty then [] else [StringPart.text text]) := by
        split <;> infer_instance
      rw [hl]
      infer_instance

instance : Brings P (literal inner) where
  throughout h := by
    rcases reads_literal h with ⟨string, rfl, hstring⟩ | ⟨found, _, hl, _⟩
    · have : Throughout P string := Brings.throughout hstring
      infer_instance
    · refine throughout_literal fun s hs => ?_
      cases hl <;> cases hs

end Literals

section Patterns

instance {α : Type} [HasNodes α] (delimiter : Delimiter) (opener : Span) (item : Parser α)
    [Brings P item] :
    Brings P (bracketed delimiter opener item) := by
  unfold bracketed
  have rest : ∀ r : {r : Except Diagnostic (List α × Span) // Throughout P r},
      Brings P (match r.1 with
      | .ok r => return r
      | .error d => throw (d.widen opener) : Parser (List α × Span)) := by
    rintro ⟨d | r, hr⟩
    · infer_instance
    · have : Throughout P r := ⟨hr.holds⟩
      infer_instance
  infer_instance

instance : Brings P (fieldPattern inner) := by
  unfold fieldPattern
  infer_instance

instance : Brings P (literalPattern inner) := by
  unfold literalPattern
  dsimp only
  infer_instance

instance : Brings P (openRangePattern inner) := by
  unfold openRangePattern
  infer_instance

instance : Brings P (pattern inner) := by
  unfold pattern
  refine .bind fun s => ?_
  dsimp only
  split
  · have hname (text : String) :
        Throughout P (if text = "_" then Pattern.wildcard s.currentSpan else
        .name ⟨text, s.currentSpan⟩) := by
      split <;> infer_instance
    infer_instance
  · infer_instance
  · infer_instance
  · infer_instance
  · infer_instance
  · split <;> infer_instance

end Patterns

section Braces

instance : Brings P (field inner) := by
  unfold field
  dsimp only
  infer_instance

instance (guessed : Bool) : Brings P (object inner guessed) := by
  unfold object
  infer_instance

instance : Brings P (optionalObject inner) := by
  unfold optionalObject
  infer_instance

omit [∀ e, Brings P (inner e)] in
instance (statement : Parser Item) [Brings P statement] : Brings P (block statement) := by
  unfold block
  infer_instance

end Braces

section Declarations

instance : Brings P (operation inner) := by
  unfold operation
  dsimp only
  infer_instance

instance : Brings P (profile inner) := by
  unfold profile
  infer_instance

instance : Brings P (functionBody inner) := by
  unfold functionBody
  infer_instance

instance : Brings P (function inner) := by
  unfold function
  infer_instance

instance : Brings P (binding inner) := by
  unfold binding
  infer_instance

instance : Brings P pathTarget := by
  unfold pathTarget
  infer_instance

instance : Brings P (use inner) := by
  unfold use
  dsimp only
  infer_instance

instance : Brings P (declaration? inner) := by
  unfold declaration?
  refine .bind fun s => ?_
  split <;> infer_instance

instance : Brings P (item inner) := by
  unfold item
  have rest : ∀ d : {d : Option Decl // Throughout P d}, Brings P (match d.1 with
      | some d => return .decl d
      | none => do return .expr (← inner .expression) : Parser Item) := by
    rintro ⟨_ | d, hd⟩
    · infer_instance
    · have := hd.of_some
      infer_instance
  infer_instance

instance : Brings P (itemBlock inner) := by
  unfold itemBlock
  infer_instance

end Declarations

section Runs

instance : Brings P (variations? inner) := by
  unfold variations?
  dsimp only
  infer_instance

instance (start : Span) : Brings P (inlineRun inner start) := by
  unfold inlineRun
  infer_instance

instance : Brings P (step inner) := by
  unfold step
  dsimp only
  infer_instance

omit [∀ e, Brings P (inner e)] in
instance : Brings P path := by
  unfold path
  infer_instance

instance : Brings P (runItem inner) := by
  unfold runItem
  have rest : ∀ d : {d : Option Decl // Throughout P d}, Brings P (match d.1 with
      | some d => return .decl d
      | none => unexpected .runItem : Parser RunItem) := by
    rintro ⟨_ | d, hd⟩
    · infer_instance
    · have := hd.of_some
      infer_instance
  infer_instance

instance (start : Span) : Brings P (runBlock inner start) := by
  unfold runBlock
  infer_instance

instance : Brings P (run inner) := by
  unfold run
  infer_instance

end Runs

section Expressions

instance : Brings P (literalOrRange inner) := by
  unfold literalOrRange
  dsimp only
  infer_instance

instance : Brings P (openRange inner) := by
  unfold openRange
  infer_instance

instance : Brings P environment := by
  unfold environment
  infer_instance

instance : Brings P (parenthesized inner) := by
  unfold parenthesized
  infer_instance

instance : Brings P (array inner) := by
  unfold array
  infer_instance

instance : Brings P (braced inner) := by
  unfold braced
  infer_instance

instance : Brings P (alternative? inner) := by
  unfold alternative?
  infer_instance

instance : Brings P (conditional inner) := by
  unfold conditional
  infer_instance

instance : Brings P (arm inner) := by
  unfold arm
  dsimp only
  infer_instance

instance : Brings P (choice inner) := by
  unfold choice
  infer_instance

instance : Brings P (lambda inner) := by
  unfold lambda
  infer_instance

instance : Brings P (arguments inner) := by
  unfold arguments
  infer_instance

instance : Brings P (emission inner) := by
  unfold emission
  infer_instance

instance : Brings P (primary inner) := by
  unfold primary
  refine .bind fun s => ?_
  split <;> infer_instance

end Expressions

instance : Brings P (script inner) := by
  unfold script
  infer_instance

end Readers

end Grammar

end ApiScript
