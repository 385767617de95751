import ApiScript.Proofs.Shape.Ahead
import ApiScript.Proofs.Shape.Literal
import ApiScript.Proofs.Spelling.Program

set_option autoImplicit false
set_option relaxedAutoImplicit false
set_option synthInstance.maxSize 2000

/-!
All nodes of a program are sound. Where a node is sound only for what is in front of it, the
question is told that the grammar has asked there.
-/

namespace ApiScript

namespace Grammar

variable {scope : Scope} {s t : State}

instance : (e : Entry) → HasNodes e.Node
  | .expression => inferInstanceAs (HasNodes Expr)
  | .operand => inferInstanceAs (HasNodes Expr)
  | .alternative => inferInstanceAs (HasNodes Conditional)
  | .block => inferInstanceAs (HasNodes Block)
  | .pattern => inferInstanceAs (HasNodes Pattern)

section Readers

instance : Yields scope rangeMark := by
  unfold rangeMark
  dsimp only
  infer_instance

variable (inner : Inner) [∀ e, Advances (inner e)] [∀ e, Yields scope (inner e)]
    [Quotes scope inner]

instance {α : Type} [HasNodes α] (delimiter : Delimiter) (opener : Span) (item : Parser α)
    [Advances item] [Yields scope item] : Yields scope (bracketed delimiter opener item) := by
  unfold bracketed
  have moves : ∀ r : Except Diagnostic (List α × Span), Advances (match r with
      | .ok r => return r
      | .error d => throw (d.widen opener) : Parser (List α × Span)) := by
    rintro (d | r) <;> infer_instance
  have rest : ∀ r : {r : Except Diagnostic (List α × Span) // Fits scope r},
      Yields scope (match r.1 with
      | .ok r => return r
      | .error d => throw (d.widen opener) : Parser (List α × Span)) := by
    rintro ⟨d | r, hr⟩
    · infer_instance
    · have : Fits scope r := ⟨hr.sound⟩
      infer_instance
  infer_instance

instance : Yields scope (fieldPattern inner) := by
  unfold fieldPattern
  infer_instance

instance : Yields scope (literalPattern inner) := by
  unfold literalPattern
  dsimp only
  infer_instance

instance : Yields scope (openRangePattern inner) := by
  unfold openRangePattern
  infer_instance

instance : Yields scope (pattern inner) := by
  unfold pattern
  refine .get_bind fun s hs => ?_
  dsimp only
  split
  · rename_i text hcurrent
    have hname := hs.fits_name hcurrent
    have hpattern :
        Fits scope (if text = "_" then Pattern.wildcard s.currentSpan else
          .name ⟨text, s.currentSpan⟩) := by
      split
      · infer_instance
      · exact fits_pattern_name ‹_›
    infer_instance
  · infer_instance
  · infer_instance
  · infer_instance
  · infer_instance
  · split <;> infer_instance

instance : Yields scope (field inner) := by
  unfold field
  dsimp only
  infer_instance

instance (guessed : Bool) : Yields scope (object inner guessed) := by
  unfold object
  infer_instance

instance : Yields scope (optionalObject inner) := by
  unfold optionalObject
  infer_instance

instance (statement : Parser Item) [Advances statement] [Yields scope statement] :
    Yields scope (block statement) := by
  unfold block
  infer_instance

instance (delimiter : Delimiter) (opener : Span) (expected : Expectation) :
    Yields scope (names delimiter opener expected) := by
  unfold names
  infer_instance

instance : Yields scope (operation inner) := by
  unfold operation
  dsimp only
  refine .ofYieldsAt fun s hs => .bind hs fun start s _ hs _ => .bind hs fun n s _ hs hn =>
    .bind hs fun _ s _ hs _ => ?_
  exact .ofYields hs

instance : Yields scope (profile inner) := by
  unfold profile
  infer_instance

instance : Yields scope (functionBody inner) := by
  unfold functionBody
  infer_instance

instance : Yields scope (function inner) := by
  unfold function
  infer_instance

instance : Yields scope (binding inner) := by
  unfold binding
  infer_instance

instance : Yields scope usePath := by
  unfold usePath
  infer_instance

instance : Yields scope importedNames := by
  unfold importedNames
  infer_instance

instance : Yields scope pathTarget := by
  unfold pathTarget
  infer_instance

instance : Yields scope (use inner) := by
  unfold use
  dsimp only
  refine .ofYieldsAt fun s hs => .bind hs fun start s _ hs _ => .get_bind ?_
  split
  · refine .bind hs fun target t htarget ht _ => ?_
    have hformed := formed_of_reads_pathTarget ‹_ ∧ _›.2 htarget
    have huse (span : Span) (body : {b : Option Block // Fits scope b}) :
        Fits scope (Decl.use span target body.1) :=
      fits_use span body.1 hformed
    exact .ofYields ht
  · refine .bind hs fun e t _ ht _ => .pure_bind ?_
    have huse (span : Span) (body : {b : Option Block // Fits scope b}) :
        Fits scope (Decl.use span (.expr e) body.1) :=
      fits_use span body.1 trivial
    exact .ofYields ht

instance : Yields scope (declaration? inner) := by
  unfold declaration?
  refine .get_bind fun s _ => ?_
  split <;> infer_instance

instance : Yields scope (item inner) := by
  unfold item
  have moves : ∀ d : Option Decl, Advances (match d with
      | some d => return .decl d
      | none => do return .expr (← inner .expression) : Parser Item) := by
    rintro (_ | d) <;> infer_instance
  have rest : ∀ d : {d : Option Decl // Fits scope d}, Yields scope (match d.1 with
      | some d => return .decl d
      | none => do return .expr (← inner .expression) : Parser Item) := by
    rintro ⟨_ | d, hd⟩
    · infer_instance
    · have := hd.of_some
      infer_instance
  infer_instance

instance : Yields scope (itemBlock inner) := by
  unfold itemBlock
  infer_instance

instance : Yields scope (variations? inner) := by
  unfold variations?
  dsimp only
  infer_instance

instance (start : Span) : Yields scope (inlineRun inner start) := by
  unfold inlineRun
  infer_instance

private theorem yieldsAt_path (hs : s.Within scope.source) (hpath : s.atPathStart = true) :
    YieldsAt scope path s := by
  unfold path
  refine .bind hs fun start _ hstart hs _ => .bind hs fun _ _ hcolon hs _ =>
    .bind hs fun n _ hn hs _ =>
    .bind hs fun chain _ hchain ht _ => ?_
  obtain ⟨-, -, rfl⟩ := reads_expect.1 hstart
  obtain ⟨-, -, rfl⟩ := reads_expect.1 hcolon
  obtain ⟨-, -, rfl⟩ := reads_name.1 hn
  have hlength := length_of_reads_links (State.sees_arrow hpath) hchain
  have hitem (span : Span) : Fits scope (RunItem.path span chain) := fits_path span hlength
  exact .ofYields ht

private theorem State.Within.fits_step (hs : s.Within scope.source) (hstep : s.atStepStart = true)
    {n : Name} {u : State} (h : Reads stepName s n u) (operation : Name) (args : Option Object)
    (span : Span) [Fits scope operation] [Fits scope args] :
    Fits scope (RunItem.step span n operation args) := by
  simp only [stepName, reads_bind, reads_get, reads_advance, reads_pure, and_assoc, exists_and_left,
    exists_eq_left, exists_const] at h
  obtain ⟨rfl, -⟩ := h
  rcases State.current?_of_atStepStart hstep with ⟨text, hcurrent⟩ | ⟨k, hk, hcurrent⟩
  · simp only [hcurrent, Option.map_some, Option.getD_some, Lexeme.spelling]
    have hsound := (hs.fits_name hcurrent).sound _ (List.mem_singleton_self _)
    exact ApiScript.fits_step span args hsound.wellFormed.here.formed (.inl hsound.suits)
  · simp only [hcurrent, Option.map_some, Option.getD_some, Lexeme.spelling]
    have hspelling : k.spelling ∈ ["profile", "run", "path"] := List.mem_map_of_mem hk
    exact ApiScript.fits_step span args (hs.shows hcurrent (by simp)).slice (.inr hspelling)

private theorem yieldsAt_step (hs : s.Within scope.source) (hstep : s.atStepStart = true) :
    YieldsAt scope (step inner) s := by
  unfold step
  dsimp only
  refine .bind_reads hs fun n t hn ht => ?_
  have hitem (span : Span) (operation : {n : Name // Fits scope n})
    (args : {o : Option Object // Fits scope o}) :
      Fits scope (RunItem.step span n operation.1 args.1) := hs.fits_step hstep hn _ _ span
  exact .ofYields ht

instance : Yields scope (runItem inner) := by
  unfold runItem
  refine .ofYieldsAt fun s hs => .get_bind ?_
  split
  · rename_i hpath
    exact yieldsAt_path hs hpath
  split
  · rename_i hstep
    exact yieldsAt_step inner hs hstep
  · have moves : ∀ d : Option Decl, Advances (match d with
        | some d => return .decl d
        | none => unexpected .runItem : Parser RunItem) := by
      rintro (_ | d) <;> infer_instance
    have rest : ∀ d : {d : Option Decl // Fits scope d}, Yields scope (match d.1 with
        | some d => return .decl d
        | none => unexpected .runItem : Parser RunItem) := by
      rintro ⟨_ | d, hd⟩
      · infer_instance
      · have := hd.of_some
        infer_instance
    exact .ofYields hs

instance (start : Span) : Yields scope (runBlock inner start) := by
  unfold runBlock
  infer_instance

instance : Yields scope (run inner) := by
  unfold run
  infer_instance

instance : Yields scope (literalOrRange inner) := by
  unfold literalOrRange
  dsimp only
  refine .ofYieldsAt fun s hs => .bind hs fun l s _ hs hl => .get_bind ?_
  split
  · rename_i hstart
    refine .bind hs fun inclusive s _ hs _ => .get_bind ?_
    split
    · rename_i hnext
      refine .bind hs fun stop s hstop hs _ => .pure_bind ?_
      have hrange (span : Span) : Fits scope (Expr.range span (some l) (some stop) inclusive) :=
        fits_range span (.inl rfl) (by simpa using hstart.1)
          (by simpa using integer_of_reads_literal hnext hstop)
      exact .ofYields hs
    · refine .pure_bind ?_
      have hrange (span : Span) : Fits scope (Expr.range span (some l) none inclusive) :=
        fits_range span (.inl rfl) (by simpa using hstart.1) (by simp)
      exact .ofYields hs
  · exact .ofYields hs

instance : Yields scope (openRange inner) := by
  unfold openRange
  refine .ofYieldsAt fun s hs => .bind hs fun start s _ hs _ => .bind hs fun inclusive s _ hs _ =>
    .get_bind ?_
  split
  · rename_i hinteger
    refine .bind hs fun stop t hstop ht _ => ?_
    have hrange (span : Span) : Fits scope (Expr.range span none (some stop) inclusive) :=
      fits_range span (.inr rfl) (by simp) (by simpa using integer_of_reads_literal hinteger hstop)
    exact .ofYields ht
  · exact .ofYields hs

instance : Yields scope environment := by
  unfold environment
  infer_instance

instance : Yields scope (parenthesized inner) := by
  unfold parenthesized
  infer_instance

instance : Yields scope (array inner) := by
  unfold array
  infer_instance

instance : Yields scope (braced inner) := by
  unfold braced
  refine .ofYieldsAt fun s hs => .get_bind ?_
  split
  · rename_i hobject
    refine .bind hs fun o t ho ht _ => ?_
    have hexpr : Fits scope (Expr.object o) := fits_object (fields_of_reads_object hobject ho)
    exact .ofYields ht
  · exact .ofYields hs

instance : Yields scope (alternative? inner) := by
  unfold alternative?
  infer_instance

instance : Yields scope (conditional inner) := by
  unfold conditional
  infer_instance

instance : Yields scope (arm inner) := by
  unfold arm
  dsimp only
  infer_instance

instance : Yields scope (choice inner) := by
  unfold choice
  infer_instance

instance : Yields scope lambdaParameters := by
  unfold lambdaParameters
  infer_instance

instance : Yields scope (lambda inner) := by
  unfold lambda
  infer_instance

instance : Yields scope (arguments inner) := by
  unfold arguments
  infer_instance

instance : Yields scope (emission inner) := by
  unfold emission
  infer_instance

instance : Yields scope (primary inner) := by
  unfold primary
  refine .get_bind fun s _ => ?_
  split <;> infer_instance

instance (e : Expr) [Fits scope e] : Yields scope (suffix? inner e) := by
  unfold suffix?
  refine .get_bind fun s _ => ?_
  split <;> infer_instance

instance : Yields scope (postfixed inner) := by
  unfold postfixed
  have moves : ∀ e : Expr, Advances (match e with
      | .emit span format args => return .emit span format args
      | e => repeated (suffix? inner) e : Parser Expr) := by
    intro e
    split <;> infer_instance
  have rest : ∀ e : {e : Expr // Fits scope e}, Yields scope (match e.1 with
      | .emit span format args => return .emit span format args
      | e => repeated (suffix? inner) e : Parser Expr) := by
    rintro ⟨e, he⟩
    dsimp only
    split <;> infer_instance
  infer_instance

instance : Yields scope (unary inner) := by
  unfold unary
  refine .get_bind fun s _ => ?_
  split <;> infer_instance

instance {Op : Type} (operator? : Lexeme → Option Op) (right : Op → Parser Expr)
    [∀ op, Advances (right op)] [∀ op, Yields scope (right op)]
    (combine : Span → Op → Expr → Expr → Expr)
    [∀ (s : Span) (op : Op) (l r : {e : Expr // Fits scope e}), Fits scope (combine s op l.1 r.1)]
    (left : {e : Expr // Fits scope e}) :
    Yields scope (extend? operator? right combine left.1) := by
  unfold extend?
  refine .get_bind fun s _ => ?_
  split
  · infer_instance
  · split <;> infer_instance

instance (minimum : Nat) : Yields scope (climb inner minimum) := by
  induction minimum using climb.induct with
  | case1 minimum ih =>
    unfold climb
    infer_instance

instance : Yields scope (pipe inner) := by
  unfold pipe
  infer_instance

end Readers

private theorem yields_enter {limit : Nat}
    (hquotes : ∀ room ≤ limit, Quotes scope (enter limit room)) {room : Nat} (h : room ≤ limit)
    (e : Entry) : Yields scope (enter limit room e) := by
  induction room generalizing e with
  | zero =>
    unfold enter
    infer_instance
  | succ room ih =>
    have inner (e : Entry) : Yields scope (enter limit room e) := ih (Nat.le_of_succ_le h) e
    have hstrings : Quotes scope (enter limit room) := hquotes room (Nat.le_of_succ_le h)
    cases e with
    | expression => exact inferInstanceAs (Yields scope (pipe (enter limit room)))
    | operand => exact inferInstanceAs (Yields scope (unary (enter limit room)))
    | alternative => exact inferInstanceAs (Yields scope (conditional (enter limit room)))
    | block => exact inferInstanceAs (Yields scope (itemBlock (enter limit room)))
    | pattern => exact inferInstanceAs (Yields scope (pattern (enter limit room)))

instance (inner : Inner) [∀ e, Advances (inner e)] [∀ e, Yields scope (inner e)]
    [Quotes scope inner] :
    Yields scope (script inner) := by
  unfold script
  infer_instance

end Grammar

open Grammar

theorem fits_parse {scope : Scope} {limit : Nat}
    (hquotes : ∀ room ≤ limit, Quotes scope (enter limit room))
    (hlog : (parse scope.source limit).2 ⊆ scope.log) :
    Fits scope (parse scope.source limit).1 := by
  obtain ⟨finish, hread, hfinish⟩ := reads_parse scope.source limit
  have hinner := yields_enter hquotes (Nat.le_refl limit)
  have hstrings := hquotes limit (Nat.le_refl limit)
  exact Yields.yields (.ofString .whole) (hfinish ▸ hlog) hread

def Scope.plain (source : String) (log : List Diagnostic) : Scope := ⟨source, log, fun _ => True⟩

instance (source : String) (log : List Diagnostic) (inner : Inner) :
    Quotes (.plain source log) inner :=
  ⟨fun _ _ _ => trivial⟩

/-- All nodes of the program that a text is read as are well-formed, with diagnostics or without,
those of code embedded in strings included. -/
theorem parse_wellFormed (source : String) (limit : Nat) :
    (parse source limit).1.Everywhere (Node.WellFormed source) := by
  have hfits : Fits (.plain source (parse source limit).2) (parse source limit).1 :=
    fits_parse (fun _ _ => inferInstance) (List.Subset.refl _)
  exact fun i hi =>
    (hfits.sound (.item i) (List.mem_flatMap.2 ⟨i, hi, List.mem_singleton_self _⟩)).wellFormed

theorem parseExpr_wellFormed (source : String) :
    ∀ e ∈ (parseExpr source).1, (Node.expr e).Everywhere (Node.WellFormed source) := by
  intro e he
  obtain ⟨finish, hread, -⟩ := parseExpr_eq_some.1 (Prod.ext he rfl)
  have hinner :
      Yields (.plain source finish.log)
        (enter Session.defaultLimit Session.defaultLimit .expression) :=
    yields_enter (fun _ _ => inferInstance) (Nat.le_refl _) .expression
  have hfits : Fits (.plain source finish.log) e :=
    Yields.yields (.ofString .whole) (List.Subset.refl _) (reads_wholeExpression.1 hread).2.1
  exact (hfits.sound (.expr e) (List.mem_singleton_self _)).wellFormed

end ApiScript
