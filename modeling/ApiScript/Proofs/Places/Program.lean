import ApiScript.Proofs.Places.Literal
import ApiScript.Proofs.Spelling.Program
import ApiScript.Report.Basic

set_option autoImplicit false
set_option relaxedAutoImplicit false
set_option synthInstance.maxSize 2000

/-!
The readers of the grammar report in place, and so all diagnostics of a script do.
-/

namespace ApiScript

namespace Grammar

section Readers

variable {source : String} {s : State}

instance : Locates source rangeMark := by
  unfold rangeMark
  dsimp only
  infer_instance

instance (start : Span) : Locates source (upToHere start) := by
  unfold upToHere
  infer_instance

private theorem locatesAt_bracketed {α : Type} (delimiter : Delimiter) {item : Parser α}
    [Advances item] [Locates source item] (h : s.Placed source)
    (hs : s.current? = some delimiter.opener) :
    LocatesAt source (bracketed delimiter s.currentSpan item) s := by
  have hopener := h.currentSpan
  unfold bracketed
  refine .advance_bind (.outcome_bind ?_ (fun _ _ ht => .pure ht) fun _ _ ht hd =>
    .throw ht (hd.widen hopener))
  exact LocatesBehind.locates h.advance (State.behind_advance hs)

instance {α : Type} (surroundings : Surroundings) (atEnd : State → Bool) (statement : Parser α)
    [Locates source statement] : Locates source (statements surroundings atEnd statement) := by
  unfold statements
  have round (items : List α) : Locates source (do
      let s ← get
      if atEnd s then return none
      match ← outcome statement with
      | .ok item => return some (items ++ [item])
      | .error d =>
        modify fun t => (t.report [d]).recover surroundings s.before.length
        return some items) := by
    refine .get_bind fun s h => ?_
    split
    · exact .pure h
    · refine .outcome_bind (Locates.locates h) (fun _ _ ht => .pure ht) fun d t ht hd => ?_
      have hreport := ht.report (List.forall_mem_singleton.2 hd)
      exact ⟨(LocatesAt.pure (hreport.recover surroundings s.before.length)).reads,
        (LocatesAt.pure (hreport.recover surroundings s.before.length)).fails⟩
  infer_instance

variable (inner : Inner) [∀ e, Advances (inner e)] [∀ e, Locates source (inner e)]

instance : Locates source (fieldPattern inner) := by
  unfold fieldPattern
  infer_instance

instance : Locates source (literalPattern inner) := by
  unfold literalPattern
  dsimp only
  infer_instance

instance : Locates source (openRangePattern inner) := by
  unfold openRangePattern
  refine .get_bind fun s h => ?_
  have hstart := h.currentSpan
  refine .bind (Locates.locates h) fun _ t _ ht => .get_bind ?_
  split
  · exact Locates.locates ht
  · exact .throw ht (.plain (hstart.merge ht.currentSpan) rfl rfl)

instance : Locates source (pattern inner) := by
  unfold pattern
  refine .get_bind fun s h => ?_
  dsimp only
  split
  · exact Locates.locates h
  · exact Locates.locates h
  · exact Locates.locates h
  · exact .bind (locatesAt_bracketed .bracket h ‹_›) fun _ _ _ ht => .pure ht
  · exact .bind (locatesAt_bracketed .brace h ‹_›) fun _ _ _ ht => .pure ht
  · split
    · exact Locates.locates h
    · exact .throw h (.plain h.currentSpan rfl rfl)

instance : Locates source (field inner) := by
  unfold field
  dsimp only
  infer_instance

instance (guessed : Bool) : Locates source (object inner guessed) := by
  unfold object
  have rest (opener : Span) (fields : List Field) : LocatesBehind source .brace opener (do
      let s ← get
      if guessed ∧ ¬s.sees (.symbol .rightBrace) ∧ ¬s.atEnd then
        throw ⟨.noObject s.current?, opener.merge s.currentSpan⟩
      let closer ← close .brace true opener
      return ⟨fields, opener.merge closer⟩ : Parser Object) := by
    refine .get_bind fun s h hb => ?_
    split
    · exact .throw h (.plain ((h.openerSpan hb).merge h.currentSpan) rfl rfl)
    · exact LocatesBehind.locates h hb
  infer_instance

instance : Locates source (optionalObject inner) := by
  unfold optionalObject
  infer_instance

instance (statement : Parser Item) [Advances statement] [Locates source statement] :
    Locates source (block statement) := by
  unfold block
  infer_instance

instance (delimiter : Delimiter) (opener : Span) (expected : Expectation) :
    LocatesBehind source delimiter opener (names delimiter opener expected) := by
  unfold names
  infer_instance

instance : Locates source (operation inner) := by
  unfold operation
  dsimp only
  infer_instance

instance : Locates source (profile inner) := by
  unfold profile
  infer_instance

instance : Locates source (functionBody inner) := by
  unfold functionBody
  infer_instance

instance : Locates source (function inner) := by
  unfold function
  infer_instance

instance : Locates source (binding inner) := by
  unfold binding
  infer_instance

instance : Locates source usePath := by
  unfold usePath
  infer_instance

instance : Locates source importedNames := by
  unfold importedNames
  infer_instance

instance : Locates source pathTarget := by
  unfold pathTarget
  infer_instance

instance : Locates source (use inner) := by
  unfold use
  dsimp only
  infer_instance

instance : Locates source (declaration? inner) := by
  unfold declaration?
  refine .get_bind fun s h => ?_
  split <;> exact Locates.locates h

instance : Locates source (item inner) := by
  unfold item
  have rest : ∀ d : Option Decl, Locates source (match d with
      | some d => return .decl d
      | none => do return .expr (← inner .expression) : Parser Item) := by
    rintro (_ | d) <;> infer_instance
  infer_instance

instance : Locates source (itemBlock inner) := by
  unfold itemBlock
  infer_instance

instance : Locates source (variations? inner) := by
  unfold variations?
  dsimp only
  infer_instance

instance (start : Span) : Locates source (inlineRun inner start) := by
  unfold inlineRun
  infer_instance

instance : Locates source stepName := by
  unfold stepName
  infer_instance

instance : Locates source (step inner) := by
  unfold step
  dsimp only
  infer_instance

instance : Locates source path := by
  unfold path
  infer_instance

instance : Locates source (runItem inner) := by
  unfold runItem
  have rest : ∀ d : Option Decl, Locates source (match d with
      | some d => return .decl d
      | none => unexpected .runItem : Parser RunItem) := by
    rintro (_ | d) <;> infer_instance
  infer_instance

instance (start : Span) : Locates source (runBlock inner start) := by
  unfold runBlock
  infer_instance

instance : Locates source (run inner) := by
  unfold run
  infer_instance

instance : Locates source (literalOrRange inner) := by
  unfold literalOrRange
  dsimp only
  infer_instance

instance : Locates source (openRange inner) := by
  unfold openRange
  infer_instance

instance : Locates source environment := by
  unfold environment
  infer_instance

instance : Locates source (parenthesized inner) := by
  unfold parenthesized
  infer_instance

instance : Locates source (array inner) := by
  unfold array
  infer_instance

instance : Locates source (braced inner) := by
  unfold braced
  infer_instance

instance : Locates source (alternative? inner) := by
  unfold alternative?
  infer_instance

instance : Locates source (conditional inner) := by
  unfold conditional
  infer_instance

instance : Locates source (arm inner) := by
  unfold arm
  dsimp only
  infer_instance

instance : Locates source (choice inner) := by
  unfold choice
  infer_instance

instance : Locates source lambdaParameters := by
  unfold lambdaParameters
  infer_instance

instance : Locates source (lambda inner) := by
  unfold lambda
  infer_instance

instance : Locates source (arguments inner) := by
  unfold arguments
  infer_instance

instance : Locates source (emission inner) := by
  unfold emission
  infer_instance

instance : Locates source (primary inner) := by
  unfold primary
  refine .get_bind fun s h => ?_
  split <;> exact Locates.locates h

instance (e : Expr) : Locates source (suffix? inner e) := by
  unfold suffix?
  refine .get_bind fun s h => ?_
  dsimp only
  split
  · exact Locates.locates h
  · have hopener : s.advance.Behind .bracket s.currentSpan := State.behind_advance ‹_›
    exact .advance_bind (LocatesBehind.locates h.advance hopener)
  · exact Locates.locates h
  · exact .pure h

instance : Locates source (postfixed inner) := by
  unfold postfixed
  have rest : ∀ e : Expr, Locates source (match e with
      | .emit span format args => return .emit span format args
      | e => repeated (suffix? inner) e : Parser Expr) := by
    intro e
    split <;> infer_instance
  infer_instance

instance : Locates source (unary inner) := by
  unfold unary
  refine .get_bind fun s h => ?_
  split <;> exact Locates.locates h

instance {Op : Type} (operator? : Lexeme → Option Op) (right : Op → Parser Expr)
    [∀ op, Locates source (right op)] (combine : Span → Op → Expr → Expr → Expr) (left : Expr) :
    Locates source (extend? operator? right combine left) := by
  unfold extend?
  refine .get_bind fun s h => ?_
  split
  · exact .pure h
  · split <;> exact Locates.locates h

instance (minimum : Nat) : Locates source (climb inner minimum) := by
  induction minimum using climb.induct with
  | case1 minimum ih =>
    unfold climb
    infer_instance

instance : Locates source (pipe inner) := by
  unfold pipe
  infer_instance

end Readers

instance (source : String) (limit room : Nat) (e : Entry) :
    Locates source (enter limit room e) := by
  induction room generalizing e with
  | zero =>
    unfold enter
    exact .get_bind fun s h => .throw h (.plain h.currentSpan rfl rfl)
  | succ room ih =>
    cases e with
    | expression => exact inferInstanceAs (Locates source (pipe (enter limit room)))
    | operand => exact inferInstanceAs (Locates source (unary (enter limit room)))
    | alternative => exact inferInstanceAs (Locates source (conditional (enter limit room)))
    | block => exact inferInstanceAs (Locates source (itemBlock (enter limit room)))
    | pattern => exact inferInstanceAs (Locates source (pattern (enter limit room)))

instance (source : String) (limit : Nat) : Locates source (script (enter limit limit)) := by
  unfold script
  infer_instance

end Grammar

open Grammar

/-- All that is wrong with a script is placed in it. -/
private theorem parse_placed (source : String) (limit : Nat) :
    ∀ d ∈ (parse source limit).2, d.Placed source := by
  obtain ⟨finish, hread, hlog⟩ := reads_parse source limit
  rw [hlog]
  exact ((Locates.locates (.ofString .whole)).reads hread).log

private theorem Delimiter.OpenedAt.over {source : String} {delimiter : Delimiter} {span : Span}
    (h : delimiter.OpenedAt source span) : span.Over source.toList := by
  obtain ⟨text, offset, he, ht⟩ := h
  exact ((Lexer.steps_at text.toList.length (Lexer.ofString text offset)).1 _ ht).over he

private theorem Diagnostic.Placed.pointers {source : String} {d : Diagnostic}
    (h : d.Placed source) :
    ∀ p ∈ Report.pointers d, p.1.Over source.toList := by
  intro p hp
  rcases List.mem_cons.1 hp with rfl | hp
  · exact h.stands
  · cases hproblem : d.problem with
    | unclosed delimiter list found opener =>
      rw [hproblem] at hp
      rw [List.mem_singleton.1 hp]
      exact (h.opener delimiter opener (by rw [hproblem]; rfl)).2.over
    | _ =>
      rw [hproblem] at hp
      cases hp

/-- Each diagnostic of a script begins and ends between characters of the source, also where it is
about code embedded in strings. An unclosed delimiter has an opener in front of it. For all that is
pointed at a report marks a range that cuts no character, and that is empty in an empty source
only. -/
theorem parse_diagnostics_located (source : String) (limit : Nat) (d : Diagnostic)
    (h : d ∈ (parse source limit).2) :
    d.span.Over source.toList ∧ d.span.stop ≤ source.utf8ByteSize ∧
      (∀ delimiter opener, d.problem.opener? = some (delimiter, opener) →
        opener.stop ≤ d.span.start ∧ delimiter.OpenedAt source opener) ∧
      ∀ p ∈ Report.pointers d, ∃ range, Report.marked? source.toList p.1 = some range ∧
        range.Over source.toList ∧
        (source ≠ "" → range.start < range.stop) := by
  have hplaced := parse_placed source limit d h
  refine ⟨hplaced.stands, Text.utf8ByteSize_eq source ▸ hplaced.stands.stop.le, hplaced.opener,
    fun p hp => ?_⟩
  obtain ⟨range, hrange, hover, hnonempty⟩ := (hplaced.pointers p hp).marked
  exact ⟨range, hrange, hover, fun hne => hnonempty fun hnil =>
    hne (String.toList_eq_nil_iff.1 hnil)⟩

/-- A parenthesis in code that is embedded in a string is not closed. -/
theorem parse_diagnostics_located_in_code :
    let source := "\"é\x24\x7b(\"ü\"\x7d\""
    let d : Diagnostic := ⟨.unclosed .parenthesis false none ⟨5, 6⟩, ⟨10, 10⟩⟩
    d ∈ (parse source 8).2 ∧ d.span.Over source.toList ∧ d.span.stop ≤ source.utf8ByteSize ∧
      (∀ delimiter opener, d.problem.opener? = some (delimiter, opener) →
        opener.stop ≤ d.span.start ∧ delimiter.OpenedAt source opener) ∧
      ∀ p ∈ Report.pointers d, ∃ range, Report.marked? source.toList p.1 = some range ∧
        range.Over source.toList ∧
        (source ≠ "" → range.start < range.stop) := by
  intro source d
  have h : d ∈ (parse source 8).2 := by decide +kernel
  exact ⟨h, parse_diagnostics_located source 8 d h⟩

/-- What a diagnostic of a script quotes, a rejected character, an escape sequence or a number with
its sign, is what the source has at its span, also where it is about code embedded in strings. -/
theorem parse_diagnostics_quote (source : String) (limit : Nat) (d : Diagnostic)
    (h : d ∈ (parse source limit).2) (text : String) (hq : d.problem.quoted? = some text) :
    Text.slice? d.span.start d.span.stop source.toList = some text.toList :=
  (parse_placed source limit d h).quoted text hq

/-- An escape sequence in a byte string that is two strings deep. -/
theorem parse_diagnostics_quote_in_code :
    let source := "\"é\x24\x7b\"\x24\x7bf(b\"ß\\q\")\x7d\"\x7d\""
    let d : Diagnostic := ⟨.lexical (.invalidEscape "\\q" .knownLetter), ⟨14, 16⟩⟩
    d ∈ (parse source 8).2 ∧ d.problem.quoted? = some "\\q" ∧
      Text.slice? d.span.start d.span.stop source.toList = some "\\q".toList := by
  intro source d
  have h : d ∈ (parse source 8).2 := by decide +kernel
  have hq : d.problem.quoted? = some "\\q" := rfl
  exact ⟨h, hq, parse_diagnostics_quote source 8 d h "\\q" hq⟩

/-- The numbers of a text have values, whatever their tokens are written like, with a sign in front
as well as without. Only an integer is refused, just where 64 bits do not hold it, and no other
number is spoken of in what is reported. -/
theorem parse_numbers (source : String) :
    (∀ offset, ∀ t ∈ (Lexer.ofString source offset).tokenize.1, ∀ kind text,
    t.lexeme = .number kind text →
      kind.Decodes text) ∧
    ∀ limit, ∀ d ∈ (parse source limit).2, ∀ kind text reason,
      d.problem = .lexical (.invalidNumber kind text reason) →
      kind = .integer ∧ reason = .outOfRange ∧ ∃ v, Numeral.Spells text.toList v ∧
      ¬Numeral.Fits v :=
  ⟨fun _ _ ht _ _ hl => Numeral.decodes_of_numeral (Lexer.tokenize_numeral ht hl),
    fun limit d hd _ _ _ hproblem => (parse_placed source limit d hd).possible _ hproblem⟩

/-- An integer in embedded code is less than 64 bits hold, but only with its sign. -/
theorem parse_numbers_of_list :
    let source := "[1.5e3, 0x1F, 2ms, \"\x24\x7b-9223372036854775809\x7d\"]"
    let t : Token := ⟨.number .duration "2ms", ⟨14, 17⟩⟩
    let d : Diagnostic :=
  ⟨.lexical (.invalidNumber .integer "-9223372036854775809" .outOfRange), ⟨22, 42⟩⟩
    (t ∈ (Lexer.ofString source 0).tokenize.1 ∧ NumberClass.duration.Decodes "2ms") ∧
      d ∈ (parse source 8).2 ∧ ∃ v, Numeral.Spells "-9223372036854775809".toList v ∧
      ¬Numeral.Fits v := by
  intro source t d
  have ht : t ∈ (Lexer.ofString source 0).tokenize.1 := by decide +kernel
  have hd : d ∈ (parse source 8).2 := by decide +kernel
  obtain ⟨htokens, hdiagnostics⟩ := parse_numbers source
  exact ⟨⟨ht, htokens 0 t ht .duration "2ms" rfl⟩, hd,
    (hdiagnostics 8 d hd .integer _ .outOfRange rfl).2.2⟩

section Some

variable {α β : Type}

private theorem isSome_bind {o : Option α} {f : α → Option β} (ho : o.isSome = true)
    (hf : ∀ a, (f a).isSome = true) :
    (o >>= f).isSome = true := by
  obtain ⟨a, rfl⟩ := Option.isSome_iff_exists.1 ho
  exact hf a

private theorem isSome_mapM {f : α → Option β} {xs : List α} (h : ∀ x ∈ xs, (f x).isSome = true) :
    (xs.mapM f).isSome = true := by
  induction xs with
  | nil => rfl
  | cons x xs ih =>
    obtain ⟨hx, hxs⟩ := List.forall_mem_cons.1 h
    rw [List.mapM_cons]
    exact isSome_bind hx fun _ => isSome_bind (ih hxs) fun _ => rfl

end Some

/-- All diagnostics of a script can be reported. -/
theorem parse_renders (source : String) (limit : Nat) (filename : String) :
    (Diagnostic.renderAll? filename source (parse source limit).2).isSome = true := by
  rw [Diagnostic.renderAll?, Option.isSome_map]
  refine isSome_mapM fun d hd => isSome_bind (isSome_mapM fun p hp => ?_) fun _ => rfl
  obtain ⟨range, hrange, -⟩ := ((parse_placed source limit d hd).pointers p hp).marked
  refine isSome_bind ?_ fun _ => rfl
  rw [hrange]
  rfl

end ApiScript
