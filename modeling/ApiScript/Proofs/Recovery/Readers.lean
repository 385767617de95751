import ApiScript.Proofs.Recovery.Kept

set_option autoImplicit false
set_option relaxedAutoImplicit false
set_option synthInstance.maxSize 2000

/-!
The readers of the grammar close no bracket that was opened in front of them. In a block, where
recovery skips tokens, this takes well nested brackets.
-/

namespace ApiScript.Grammar

private theorem Leaves.decoded_bind {α β : Type} {r : Except LexicalError α} {f : α → Parser β}
    {s : State} {P : State → Prop} (hP : P s) (h : ∀ a, Leaves (f a) s P) :
    Leaves (decoded r >>= f) s P := by
  cases r with
  | ok a => exact ⟨(h a).reads, (h a).fails⟩
  | error e => exact ⟨nofun, fun hf => by cases hf; exact hP⟩

section Readers

variable (inner : Inner)

instance (source : String) (offset : Nat) : Keeps (embedded inner source offset) := by
  unfold embedded
  dsimp only
  have rest : ∀ r : EStateM.Result Diagnostic State Expr, Keeps (match r with
      | .ok e finish => do
        modify (·.report finish.log)
        return e
      | .error d finish => do
        modify (·.report finish.log)
        throw d : Parser Expr) := by
    rintro (⟨e, finish⟩ | ⟨d, finish⟩) <;> infer_instance
  infer_instance

instance (segments : List Quoted.Segment) : Keeps (stringParts inner segments) := by
  induction segments with
  | nil => exact inferInstanceAs (Keeps (pure []))
  | cons segment segments ih =>
    cases segment <;>
    · unfold stringParts
      infer_instance

instance (expected : Expectation) : Keeps (string inner expected) := by
  unfold string
  refine .get_bind fun s ks hs h => ?_
  dsimp only
  split
  · rename_i raw hl
    refine .decoded_bind h fun segments => ?_
    refine .bind hs (P := fun t => t.current? = s.current? ∧ Above ks t) (fun hr => ?_)
      (Keeps.leaves hs h).fails ?_
    · exact ⟨(stringParts_moves hr).current?, (Keeps.leaves hs h).reads hr⟩
    · exact fun _ t ht ⟨hcurrent, h⟩ => .plain (hcurrent.trans hl) ht h
  · exact .decoded_bind h fun _ => .plain ‹_› hs h
  · exact Keeps.leaves hs h

instance : Keeps (literal inner) := by
  unfold literal
  refine .get_bind fun s ks hs h => ?_
  dsimp only
  -- The sign, if there is one, is left behind first.
  split
  · rename_i hsign
    obtain ⟨minus, number, rest, ha, hminus, _⟩ := State.atNegativeNumber_iff.1 hsign
    have hsees : s.sees (.symbol .minus) = true := State.sees_iff.2 ⟨minus, _, ha, hminus⟩
    have hs' := hs.advance
    have h' := h.plain (State.current?_of_sees hsees)
    refine .advance_bind (.get_bind ?_)
    split <;>
    first
    | exact .decoded_bind h' fun _ => .plain ‹_› hs' h'
    | exact .plain ‹_› hs' h'
    | exact Keeps.leaves hs' h'
  · refine .get_bind ?_
    split <;>
    first
    | exact .decoded_bind h fun _ => .plain ‹_› hs h
    | exact .plain ‹_› hs h
    | exact Keeps.leaves hs h

private theorem leaves_rangeMark {α : Type} {f : Bool → Parser α} [∀ b, Keeps (f b)] {s : State}
    {ks : List (Nat × Delimiter)} (hmark : s.atRangeMark = true) (hs : s.Nested) (h : Above ks s) :
    Leaves (rangeMark >>= f) s (Above ks) := by
  have hm : Above ks s.advance := by
    simp only [State.atRangeMark, Bool.or_eq_true] at hmark
    rcases hmark with hm | hm
    · exact h.plain (State.current?_of_sees hm)
    · exact h.plain (State.current?_of_sees hm)
  refine .bind hs (P := Above ks) (fun hr => ?_) (fun hf => by cases hf) fun _ _ => Keeps.leaves
  simp only [rangeMark, reads_bind, reads_get, reads_advance, reads_pure, and_assoc,
    exists_and_left, exists_eq_left, exists_const] at hr
  exact hr.2 ▸ hm

variable [∀ e, Advances (inner e)] [∀ e, Keeps (inner e)]

instance : Keeps (fieldPattern inner) := by
  unfold fieldPattern
  infer_instance

private theorem leaves_bracketed {α β : Type} {delimiter : Delimiter} {opener : Span}
    {item : Parser α} [Advances item] [Keeps item] {f : List α × Span → Parser β} [∀ r, Keeps (f r)]
    {s : State} {ks : List (Nat × Delimiter)} {l : Lexeme} {d : Delimiter}
    (hl : s.current? = some l) (hd : l.opens? = some d) (hs : s.Nested) (h : Above ks s) :
    Leaves (bracketed delimiter opener item >>= f) s (Above ks) := by
  have hleaves : Leaves (bracketed delimiter opener item) s (Above ks) := by
    obtain ⟨k, hk⟩ := h.opens hl hd
    have hitems : Leaves (outcome (delimited delimiter true opener item)) s.advance (Above ks) :=
      Closes.leaves hs.advance hk
    refine .advance_bind (.bind hs.advance hitems.reads hitems.fails fun r _ hs h => ?_)
    cases r <;> exact Keeps.leaves hs h
  exact .bind hs hleaves.reads hleaves.fails fun _ _ => Keeps.leaves

instance : Keeps (literalPattern inner) := by
  unfold literalPattern
  refine .get_bind fun s ks hs h => ?_
  refine .bind hs (Keeps.leaves hs h).reads (Keeps.leaves hs h).fails fun _ t ht h => .get_bind ?_
  split
  · exact leaves_rangeMark ‹_› ht h
  · exact Keeps.leaves ht h

omit [∀ e, Advances (inner e)] [∀ e, Keeps (inner e)] in
private theorem leaves_openRangePattern {s : State} {ks : List (Nat × Delimiter)}
    (hmark : s.atRangeMark = true) (hs : s.Nested) (h : Above ks s) :
    Leaves (openRangePattern inner) s (Above ks) :=
  .get_bind (leaves_rangeMark hmark hs h)

theorem atRangeMark_of_current? {s : State}
    (h : s.current? = some (.symbol .range) ∨ s.current? = some (.symbol .rangeInclusive)) :
    s.atRangeMark = true := by
  rcases h with h | h <;> simp [State.atRangeMark, State.sees, h]

instance : Keeps (pattern inner) := by
  unfold pattern
  refine .get_bind fun s ks hs h => ?_
  dsimp only
  split
  · exact .plain ‹_› hs h
  · exact leaves_openRangePattern inner (atRangeMark_of_current? (.inl ‹_›)) hs h
  · exact leaves_openRangePattern inner (atRangeMark_of_current? (.inr ‹_›)) hs h
  · exact leaves_bracketed ‹_› rfl hs h
  · exact leaves_bracketed ‹_› rfl hs h
  · exact Keeps.leaves hs h

instance : Keeps (field inner) := by
  unfold field
  dsimp only
  infer_instance

instance (guessed : Bool) : Keeps (object inner guessed) := by
  unfold object
  dsimp only
  infer_instance

instance : Keeps (optionalObject inner) := by
  unfold optionalObject
  infer_instance

end Readers

section Statements

variable {α β : Type} {surroundings : Surroundings} {statement : Parser α} {s t : State}
  {ks : List (Nat × Delimiter)} {n : Nat}

theorem ne_rightBrace_of_must (hs : ¬atBlockEnd s) (h : Reaches s t)
    (hmust : (t.before.length == s.before.length) = true) :
    ∀ next ∈ t.after.head?, next.lexeme ≠ .symbol .rightBrace := by
  obtain ⟨ts, hm⟩ := h
  have hts : ts = [] := by
    have := congrArg List.length hm.before
    simp only [List.length_append, List.length_reverse] at this
    simp only [beq_iff_eq] at hmust
    exact List.eq_nil_of_length_eq_zero (by omega)
  intro next hnext hbrace
  obtain ⟨rest, hrest⟩ := List.head?_eq_some_iff.1 hnext
  have hafter : s.after = next :: rest := by rw [hm.after, hts, hrest, List.nil_append]
  exact hs (by simp [atBlockEnd, State.sees_iff.2 ⟨next, rest, hafter, hbrace⟩])

/-- Recovery in a block leaves the brace of the block open. -/
theorem Above.recover (hb : surroundings ≠ .script) (hs : ¬atBlockEnd s) (h : Reaches s t)
    (ht : t.Nested) (ha : Above ((n, .brace) :: ks) t) :
    Above ((n, .brace) :: ks) (t.recover surroundings s.before.length) :=
  skip_keeps hb (State.nested_iff.1 ht) (fun hm _ => ne_rightBrace_of_must hs h hm) ha

variable [Advances statement] [Consumes statement] [Keeps statement]

omit [Consumes statement] in
private theorem Listed.keeps (hb : surroundings ≠ .script) {as : List α}
    (h : Listed surroundings atBlockEnd statement s as t) (hs : s.Nested)
    (ha : Above ((n, .brace) :: ks) s) : Above ((n, .brace) :: ks) t := by
  induction h with
  | done => exact ha
  | read _ hread _ ih =>
    exact ih (hs.reaches (Advances.reads hread)) ((Keeps.leaves hs ha).reads hread)
  | @resume s u _ d _ hend hd _ ih =>
    have hreach : Reaches s (u.report [d]) := (Advances.fails hd).trans (.report _ _)
    have hn := hs.reaches hreach
    have hkept : Above ((n, .brace) :: ks) u := (Keeps.leaves hs ha).fails hd
    exact ih (hn.reaches (.recover _ _ _)) (.recover hb hend hreach hn hkept)

private theorem keeps_braces (hb : surroundings ≠ .script) {f : Span → List α → Parser β}
    [∀ o as, Closes (f o as)] :
    Keeps (expect (.symbol .leftBrace) >>= fun o => statements surroundings atBlockEnd statement >>=
      f o) where
  leaves {s ks} hs h := by
    refine .bind hs (P := Above ((s.before.length, .brace) :: openers s.before)) (fun hr => ?_)
      (Opens.fails h) ?_
    · obtain ⟨hsees, _, rfl⟩ := reads_expect.1 hr
      exact above_opener hsees rfl
    intro opener t ht hbase
    refine .bind ht (P := Above ((s.before.length, .brace) :: openers s.before)) (fun hr => ?_)
      (fun hf => absurd hf fails_statements) fun items u hu hclose => ?_
    · exact ((reads_statements atBlockEnd_of_atEnd).1 hr).keeps hb ht hbase
    · have hleaves := Closes.leaves (p := f opener items) hu hclose
      exact ⟨fun hr => h.trans (hleaves.reads hr), fun hf => h.trans (hleaves.fails hf)⟩

end Statements

section Nodes

variable (inner : Inner) [∀ e, Advances (inner e)] [∀ e, Keeps (inner e)]

instance (statement : Parser Item) [Advances statement] [Consumes statement] [Keeps statement] :
    Keeps (block statement) := by
  unfold block
  exact keeps_braces (by decide)

instance (opener : Span) (expected : Expectation) : Keeps (names .bar opener expected) := by
  unfold names
  infer_instance

instance (delimiter : Delimiter) (opener : Span) (expected : Expectation) :
    Closes (names delimiter opener expected) := by
  unfold names
  infer_instance

instance (start : Span) : Keeps (upToHere start) := by
  unfold upToHere
  infer_instance

instance : Keeps (operation inner) := by
  unfold operation
  dsimp only
  infer_instance

instance : Keeps (profile inner) := by
  unfold profile
  infer_instance

instance : Keeps (functionBody inner) := by
  unfold functionBody
  infer_instance

instance : Keeps (function inner) := by
  unfold function
  infer_instance

instance : Keeps (binding inner) := by
  unfold binding
  infer_instance

instance : Keeps usePath := by
  unfold usePath
  have step : Keeps (do
      let s ← get
      if s.sees (.symbol .scope) ∧ s.peek? 1 ≠ some (.symbol .star) ∧
          s.peek? 1 ≠ some (.symbol .leftBrace) then
        advance
        return some (← name .moduleNameOrEnd)
      else
        return none) := by
    refine .get_bind fun s ks hs h => ?_
    split
    · rename_i hscope
      exact .plain (State.current?_of_sees hscope.1) hs h
    · exact Keeps.leaves hs h
  infer_instance

instance : Keeps importedNames := by
  unfold importedNames
  infer_instance

instance : Keeps pathTarget := by
  unfold pathTarget
  infer_instance

instance : Keeps (use inner) := by
  unfold use
  dsimp only
  infer_instance

instance : Keeps (declaration? inner) := by
  unfold declaration?
  refine .get_bind fun s ks hs h => ?_
  split <;> exact Keeps.leaves hs h

instance : Keeps (item inner) := by
  unfold item
  have rest : ∀ d : Option Decl, Keeps (match d with
      | some d => return .decl d
      | none => do return .expr (← inner .expression) : Parser Item) := by
    rintro (_ | d) <;> infer_instance
  infer_instance

instance [Consumes (inner .expression)] : Keeps (itemBlock inner) := by
  unfold itemBlock
  infer_instance

instance : Keeps (variations? inner) := by
  unfold variations?
  dsimp only
  infer_instance

instance (start : Span) : Keeps (inlineRun inner start) := by
  unfold inlineRun
  infer_instance

private theorem leaves_step {s : State} {ks : List (Nat × Delimiter)} (hstep : s.atStepStart = true)
    (hs : s.Nested) (h : Above ks s) : Leaves (step inner) s (Above ks) := by
  have hname : ∃ l, s.current? = some l ∧ l.opens? = none ∧ l.closes? = none := by
    unfold State.atStepStart State.startsStep at hstep
    split at hstep
    · rename_i name colon rest hafter
      refine ⟨name.lexeme, by simp [State.current?, State.peek?, hafter], ?_⟩
      simp only [Bool.and_eq_true] at hstep
      have hname := hstep.1
      split at hname
      · rw [‹name.lexeme = _›]
        exact ⟨rfl, rfl⟩
      · rw [‹name.lexeme = _›]
        exact ⟨rfl, rfl⟩
      · rw [‹name.lexeme = _›]
        exact ⟨rfl, rfl⟩
      · rw [‹name.lexeme = _›]
        exact ⟨rfl, rfl⟩
      · cases hname
    · cases hstep
  obtain ⟨l, hl, hopens, hcloses⟩ := hname
  have : Plain l := ⟨hopens, hcloses⟩
  have hleaves : Leaves stepName s (Above ks) := .get_bind (.plain hl hs h)
  unfold step
  dsimp only
  exact .bind hs hleaves.reads hleaves.fails fun _ _ => Keeps.leaves

instance : Keeps path := by
  unfold path
  infer_instance

instance : Keeps (runItem inner) := by
  unfold runItem
  have rest : ∀ d : Option Decl, Keeps (match d with
      | some d => return .decl d
      | none => unexpected .runItem : Parser RunItem) := by
    rintro (_ | d) <;> infer_instance
  refine .get_bind fun s ks hs h => ?_
  split
  · exact Keeps.leaves hs h
  · split
    · exact leaves_step inner ‹_› hs h
    · exact Keeps.leaves hs h

instance (start : Span) : Keeps (runBlock inner start) := by
  unfold runBlock
  exact keeps_braces (by decide)

variable [Consumes (inner .expression)]

instance : Keeps (run inner) := by
  unfold run
  infer_instance

instance : Keeps (literalOrRange inner) := by
  unfold literalOrRange
  refine ⟨fun hs h => .bind hs (Keeps.leaves hs h).reads (Keeps.leaves hs h).fails fun _ t ht h =>
    .get_bind ?_⟩
  split
  · rename_i hmark
    exact leaves_rangeMark hmark.2 ht h
  · exact Keeps.leaves ht h

omit [∀ e, Advances (inner e)] [∀ e, Keeps (inner e)] [Consumes (inner .expression)] in
private theorem leaves_openRange {s : State} {ks : List (Nat × Delimiter)}
    (hmark : s.atRangeMark = true) (hs : s.Nested) (h : Above ks s) :
    Leaves (openRange inner) s (Above ks) :=
  have hleaves := leaves_rangeMark (f := fun inclusive => do
    if (← get).atInteger then
      let stop ← literal inner
      return Expr.range (s.currentSpan.merge stop.span) none (some stop) inclusive
    else
      unexpected .rangeEnd) hmark hs h
  ⟨hleaves.reads, hleaves.fails⟩

instance : Keeps environment := by
  unfold environment
  infer_instance

instance : Keeps (parenthesized inner) := by
  unfold parenthesized
  infer_instance

instance : Keeps (array inner) := by
  unfold array
  infer_instance

instance : Keeps (braced inner) := by
  unfold braced
  infer_instance

instance : Keeps (alternative? inner) := by
  unfold alternative?
  infer_instance

instance : Keeps (conditional inner) := by
  unfold conditional
  infer_instance

instance : Keeps (arm inner) := by
  unfold arm
  dsimp only
  infer_instance

instance : Keeps (choice inner) := by
  unfold choice
  infer_instance

instance : Keeps lambdaParameters := by
  unfold lambdaParameters
  infer_instance

instance : Keeps (lambda inner) := by
  unfold lambda
  infer_instance

instance : Keeps (arguments inner) := by
  unfold arguments
  infer_instance

instance : Keeps (emission inner) := by
  unfold emission
  refine ⟨fun hs h => .bind hs (Keeps.leaves hs h).reads (Keeps.leaves hs h).fails fun _ t ht h =>
    .get_bind ?_⟩
  split
  · rename_i hdot
    exact .plain (State.current?_of_sees hdot.1) ht h
  · exact Keeps.leaves ht h

instance : Keeps (primary inner) := by
  unfold primary
  refine .get_bind fun s ks hs h => ?_
  split
  case h_3 => exact leaves_openRange inner (atRangeMark_of_current? (.inl ‹_›)) hs h
  case h_4 => exact leaves_openRange inner (atRangeMark_of_current? (.inr ‹_›)) hs h
  all_goals exact Keeps.leaves hs h

instance (e : Expr) : Keeps (suffix? inner e) := by
  unfold suffix?
  refine .get_bind fun s ks hs h => ?_
  dsimp only
  split
  · exact .plain ‹_› hs h
  · exact .opens ‹_› rfl hs h
  · exact Keeps.leaves hs h
  · exact Keeps.leaves hs h

instance : Keeps (postfixed inner) := by
  unfold postfixed
  refine @keeps_bind _ _ _ _ inferInstance inferInstance fun e => ?_
  split <;> infer_instance

instance : Keeps (unary inner) := by
  unfold unary
  refine .get_bind fun s ks hs h => ?_
  split
  · rename_i op hop
    exact .plain (unaryOp?_current? hop) hs h
  · exact Keeps.leaves hs h

private theorem keeps_extend? {Op : Type} {operator? : Lexeme → Option Op}
    (hplain : ∀ l op, operator? l = some op → Plain l) (right : Op → Parser Expr)
    [∀ op, Advances (right op)] [∀ op, Keeps (right op)] (combine : Span → Op → Expr → Expr → Expr)
    (left : Expr) :
    Keeps (extend? operator? right combine left) := by
  unfold extend?
  refine .get_bind fun s ks hs h => ?_
  split
  · exact Keeps.leaves hs h
  · split
    · exact Keeps.leaves hs h
    · rename_i l hl _ op hop
      have := hplain l op hop
      exact .plain hl hs h

instance (minimum : Nat) : Keeps (climb inner minimum) := by
  induction minimum using climb.induct with
  | case1 minimum ih =>
    have round (left : Expr) : Keeps (extend? (operatorFrom minimum)
        (fun op => climb inner (op.1.precedence + 1)) (fun span op => .binary span op.1) left) :=
      keeps_extend? (fun l op hop => by rw [← operatorFrom_lexeme hop]; infer_instance) _ _ _
    unfold climb
    infer_instance

instance : Keeps (pipe inner) := by
  have round (left : Expr) :
      Keeps (extend? pipeOf (fun _ => climb inner 0) (fun span _ => .pipe span) left) :=
    keeps_extend? (fun l op hop => by rw [pipeOf_eq_some hop]; infer_instance) _ _ _
  unfold pipe
  infer_instance

end Nodes

instance (limit room : Nat) (e : Entry) : Keeps (enter limit room e) := by
  induction room generalizing e with
  | zero =>
    unfold enter
    infer_instance
  | succ room ih =>
    cases e with
    | expression => exact inferInstanceAs (Keeps (pipe (enter limit room)))
    | operand => exact inferInstanceAs (Keeps (unary (enter limit room)))
    | alternative => exact inferInstanceAs (Keeps (conditional (enter limit room)))
    | block => exact inferInstanceAs (Keeps (itemBlock (enter limit room)))
    | pattern => exact inferInstanceAs (Keeps (pattern (enter limit room)))

end ApiScript.Grammar
