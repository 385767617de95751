import ApiScript.Proofs.Reading.Moves

set_option autoImplicit false
set_option relaxedAutoImplicit false
set_option synthInstance.maxSize 2000

/-!
The readers of the grammar move forward, and those of statements and of expressions leave a token
behind.
-/

namespace ApiScript.Grammar

instance {α : Type} (r : Except LexicalError α) : Advances (decoded r) := by
  unfold decoded
  split <;> infer_instance

instance (ds : List Diagnostic) : Advances (modify (·.report ds) : Parser Unit) where
  reads h := by
    rw [reads_modify.1 h]
    exact .report _ _
  fails h := by cases h

instance (d : Diagnostic) (surroundings : Surroundings) (start : Nat) :
    Advances (modify fun t => (t.report [d]).recover surroundings start : Parser Unit) where
  reads h := by
    rw [reads_modify.1 h]
    exact (Reaches.report _ _).trans (.recover _ _ _)
  fails h := by cases h

section Readers

variable (inner : Inner)

instance (source : String) (offset : Nat) : Advances (embedded inner source offset) := by
  unfold embedded
  dsimp only
  have rest : ∀ r : EStateM.Result Diagnostic State Expr, Advances (match r with
      | .ok e finish => do
        modify (·.report finish.log)
        return e
      | .error d finish => do
        modify (·.report finish.log)
        throw d : Parser Expr) := by
    rintro (⟨e, finish⟩ | ⟨d, finish⟩) <;> infer_instance
  infer_instance

instance (segments : List Quoted.Segment) : Advances (stringParts inner segments) := by
  induction segments with
  | nil => exact inferInstanceAs (Advances (pure []))
  | cons segment segments ih =>
    cases segment <;>
    · unfold stringParts
      infer_instance

instance (expected : Expectation) : Advances (string inner expected) := by
  unfold string
  refine @advances_bind _ _ _ _ inferInstance fun s => ?_
  dsimp only
  split <;> infer_instance

instance : Advances (literal inner) := by
  unfold literal
  refine @advances_bind _ _ _ _ inferInstance fun start => ?_
  dsimp only
  split
  · refine @advances_bind _ _ _ _ inferInstance fun _ =>
      @advances_bind _ _ _ _ inferInstance fun s => ?_
    split <;> infer_instance
  · refine @advances_bind _ _ _ _ inferInstance fun s => ?_
    split <;> infer_instance

instance : Advances rangeMark := by
  unfold rangeMark
  dsimp only
  infer_instance

variable [∀ e, Advances (inner e)]

instance : Advances (fieldPattern inner) := by
  unfold fieldPattern
  infer_instance

instance {α : Type} (delimiter : Delimiter) (opener : Span) (item : Parser α) [Advances item] :
    Advances (bracketed delimiter opener item) := by
  unfold bracketed
  have rest : ∀ r : Except Diagnostic (List α × Span), Advances (match r with
      | .ok r => return r
      | .error d => throw (d.widen opener) : Parser (List α × Span)) := by
    rintro (d | r) <;> infer_instance
  infer_instance

instance : Advances (literalPattern inner) := by
  unfold literalPattern
  dsimp only
  infer_instance

instance : Advances (openRangePattern inner) := by
  unfold openRangePattern
  infer_instance

instance : Advances (pattern inner) := by
  unfold pattern
  refine @advances_bind _ _ _ _ inferInstance fun s => ?_
  dsimp only
  split <;> infer_instance

instance : Advances (field inner) := by
  unfold field
  dsimp only
  infer_instance

instance (guessed : Bool) : Advances (object inner guessed) := by
  unfold object
  dsimp only
  infer_instance

instance : Advances (optionalObject inner) := by
  unfold optionalObject
  infer_instance

instance {α : Type} (surroundings : Surroundings) (atEnd : State → Bool) (statement : Parser α)
    [Advances statement] : Advances (statements surroundings atEnd statement) := by
  unfold statements
  have rest : ∀ (items : List α) (start : Nat) (r : Except Diagnostic α), Advances (match r with
      | .ok item => return some (items ++ [item])
      | .error d => do
        modify fun t => (t.report [d]).recover surroundings start
        return some items : Parser (Option (List α))) := by
    rintro items start (d | item) <;> infer_instance
  infer_instance

instance (statement : Parser Item) [Advances statement] : Advances (block statement) := by
  unfold block
  infer_instance

instance (delimiter : Delimiter) (opener : Span) (expected : Expectation) :
    Advances (names delimiter opener expected) := by
  unfold names
  infer_instance

instance (start : Span) : Advances (upToHere start) := by
  unfold upToHere
  infer_instance

instance : Advances (operation inner) := by
  unfold operation
  dsimp only
  infer_instance

instance : Advances (profile inner) := by
  unfold profile
  infer_instance

instance : Advances (functionBody inner) := by
  unfold functionBody
  infer_instance

instance : Advances (function inner) := by
  unfold function
  infer_instance

instance : Advances (binding inner) := by
  unfold binding
  infer_instance

instance : Advances usePath := by
  unfold usePath
  infer_instance

instance : Advances importedNames := by
  unfold importedNames
  infer_instance

instance : Advances pathTarget := by
  unfold pathTarget
  infer_instance

instance : Advances (use inner) := by
  unfold use
  dsimp only
  infer_instance

instance : Advances (declaration? inner) := by
  unfold declaration?
  refine @advances_bind _ _ _ _ inferInstance fun s => ?_
  split <;> infer_instance

instance : Advances (item inner) := by
  unfold item
  have rest : ∀ d : Option Decl, Advances (match d with
      | some d => return .decl d
      | none => do return .expr (← inner .expression) : Parser Item) := by
    rintro (_ | d) <;> infer_instance
  infer_instance

instance : Advances (itemBlock inner) := by
  unfold itemBlock
  infer_instance

instance : Advances (variations? inner) := by
  unfold variations?
  dsimp only
  infer_instance

instance (start : Span) : Advances (inlineRun inner start) := by
  unfold inlineRun
  infer_instance

instance : Advances stepName := by
  unfold stepName
  infer_instance

instance : Advances (step inner) := by
  unfold step
  dsimp only
  infer_instance

instance : Advances path := by
  unfold path
  infer_instance

instance : Advances (runItem inner) := by
  unfold runItem
  have rest : ∀ d : Option Decl, Advances (match d with
      | some d => return .decl d
      | none => unexpected .runItem : Parser RunItem) := by
    rintro (_ | d) <;> infer_instance
  infer_instance

instance (start : Span) : Advances (runBlock inner start) := by
  unfold runBlock
  infer_instance

instance : Advances (run inner) := by
  unfold run
  infer_instance

instance : Advances (literalOrRange inner) := by
  unfold literalOrRange
  dsimp only
  infer_instance

instance : Advances (openRange inner) := by
  unfold openRange
  infer_instance

instance : Advances environment := by
  unfold environment
  infer_instance

instance : Advances (parenthesized inner) := by
  unfold parenthesized
  infer_instance

instance : Advances (array inner) := by
  unfold array
  infer_instance

instance : Advances (braced inner) := by
  unfold braced
  infer_instance

instance : Advances (alternative? inner) := by
  unfold alternative?
  infer_instance

instance : Advances (conditional inner) := by
  unfold conditional
  infer_instance

instance : Advances (arm inner) := by
  unfold arm
  dsimp only
  infer_instance

instance : Advances (choice inner) := by
  unfold choice
  infer_instance

instance : Advances lambdaParameters := by
  unfold lambdaParameters
  infer_instance

instance : Advances (lambda inner) := by
  unfold lambda
  infer_instance

instance : Advances (arguments inner) := by
  unfold arguments
  infer_instance

instance : Advances (emission inner) := by
  unfold emission
  infer_instance

instance : Advances (primary inner) := by
  unfold primary
  refine @advances_bind _ _ _ _ inferInstance fun s => ?_
  split <;> infer_instance

instance (e : Expr) : Advances (suffix? inner e) := by
  unfold suffix?
  refine @advances_bind _ _ _ _ inferInstance fun s => ?_
  dsimp only
  split <;> infer_instance

instance : Advances (postfixed inner) := by
  unfold postfixed
  refine @advances_bind _ _ _ _ inferInstance fun e => ?_
  split <;> infer_instance

instance : Advances (unary inner) := by
  unfold unary
  refine @advances_bind _ _ _ _ inferInstance fun s => ?_
  split <;> infer_instance

instance {Op : Type} (operator? : Lexeme → Option Op) (right : Op → Parser Expr)
    [∀ op, Advances (right op)] (combine : Span → Op → Expr → Expr → Expr) (left : Expr) :
    Advances (extend? operator? right combine left) := by
  unfold extend?
  refine @advances_bind _ _ _ _ inferInstance fun s => ?_
  split
  · infer_instance
  · split <;> infer_instance

instance (minimum : Nat) : Advances (climb inner minimum) := by
  induction minimum using climb.induct with
  | case1 minimum ih =>
    unfold climb
    infer_instance

instance : Advances (pipe inner) := by
  unfold pipe
  infer_instance

end Readers

instance (limit room : Nat) (e : Entry) : Advances (enter limit room e) := by
  induction room generalizing e with
  | zero =>
    unfold enter
    infer_instance
  | succ room ih =>
    cases e with
    | expression => exact inferInstanceAs (Advances (pipe (enter limit room)))
    | operand => exact inferInstanceAs (Advances (unary (enter limit room)))
    | alternative => exact inferInstanceAs (Advances (conditional (enter limit room)))
    | block => exact inferInstanceAs (Advances (itemBlock (enter limit room)))
    | pattern => exact inferInstanceAs (Advances (pattern (enter limit room)))

instance (limit room : Nat) : Advances (script (enter limit room)) := by
  unfold script
  infer_instance

end ApiScript.Grammar
