import ApiScript.Proofs.Spelling.Program

set_option autoImplicit false
set_option relaxedAutoImplicit false
set_option synthInstance.maxSize 2000

/-!
Runs under a higher limit of nesting. A reader that does not meet the limit does the same under any
higher one, and whatever meets the limit is told, so that a run in which nothing is told of the
limit is the same under all higher ones.
-/

namespace ApiScript

open Grammar

namespace Grammar

section Cut

variable {α β : Type} {limit : Nat}

def Tells (limit : Nat) (d : Diagnostic) : Prop := d.problem = .tooDeep limit

/-- Something is told of the limit in what is left behind, or in the failure itself. -/
def Cut (limit : Nat) : EStateM.Result Diagnostic State α → Prop
  | .ok _ s => ∃ d ∈ s.log, Tells limit d
  | .error d s => Tells limit d ∨ ∃ e ∈ s.log, Tells limit e

private theorem cut_of_log {p : Parser α} [Advances p] {s : State}
    (h : ∃ d ∈ s.log, Tells limit d) :
    Cut limit (p s) := by
  obtain ⟨d, hd, htells⟩ := h
  cases hp : p s with
  | ok a t => exact ⟨d, (Advances.reads hp).log.subset hd, htells⟩
  | error e t => exact .inr ⟨d, (Advances.fails hp).log.subset hd, htells⟩

/-- Where the first reader does not meet the limit, both do the same; what was told of the limit
stays told. -/
class Raised (limit : Nat) (p q : Parser α) : Prop where
  same (s : State) : p s = q s ∨ Cut limit (p s)
  kept {s : State} : (∃ d ∈ s.log, Tells limit d) → Cut limit (p s)

instance raised_refl (p : Parser α) [Advances p] : Raised limit p p :=
  ⟨fun _ => .inl rfl, cut_of_log⟩

private theorem Cut.bind {p : Parser α} {f g : α → Parser β} [∀ a, Raised limit (f a) (g a)]
    {s : State} (h : Cut limit (p s)) : Cut limit ((p >>= f) s) := by
  change Cut limit (EStateM.bind p f s)
  unfold EStateM.bind
  cases hp : p s with
  | ok a t =>
    rw [hp] at h
    exact Raised.kept (q := g a) h
  | error d t =>
    rw [hp] at h
    exact h

instance raised_bind (p q : Parser α) (f g : α → Parser β) [Raised limit p q]
    [∀ a, Raised limit (f a) (g a)] :
    Raised limit (p >>= f) (q >>= g) where
  same s := by
    rcases @Raised.same _ limit p q _ s with hpq | hcut
    · change EStateM.bind p f s = EStateM.bind q g s ∨ Cut limit (EStateM.bind p f s)
      unfold EStateM.bind
      rw [← hpq]
      cases p s with
      | ok a t => exact Raised.same t
      | error d t => exact .inl rfl
    · exact .inr (hcut.bind (g := g))
  kept h := (Raised.kept (q := q) h).bind (g := g)

instance (c : Prop) [Decidable c] (p p' q q' : Parser α) [Raised limit p q] [Raised limit p' q'] :
    Raised limit (if c then p else p') (if c then q else q') := by
  split <;> assumption

private theorem raised_outcome_bind {p q : Parser α} {k k' : Except Diagnostic α → Parser β}
    [Raised limit p q] [∀ r, Raised limit (k r) (k' r)]
    (htells : ∀ d s, Tells limit d → Cut limit (k (.error d) s)) :
    Raised limit (outcome p >>= k) (outcome q >>= k') := by
  have goesOn {s : State} (h : Cut limit (p s)) : Cut limit ((outcome p >>= k) s) := by
    change Cut limit (EStateM.bind (outcome p) k s)
    unfold EStateM.bind outcome
    cases hp : p s with
    | ok a t =>
      rw [hp] at h
      exact Raised.kept (q := k' (.ok a)) h
    | error d t =>
      rw [hp] at h
      exact h.elim (htells d t) (Raised.kept (q := k' (.error d)))
  refine ⟨fun s => ?_, fun h => goesOn (Raised.kept (q := q) h)⟩
  rcases @Raised.same _ limit p q _ s with hpq | hcut
  · change EStateM.bind (outcome p) k s = EStateM.bind (outcome q) k' s ∨
      Cut limit (EStateM.bind (outcome p) k s)
    unfold EStateM.bind outcome
    rw [← hpq]
    cases p s with
    | ok a t => exact Raised.same t
    | error d t => exact Raised.same t
  · exact .inr (goesOn hcut)

private theorem raised_get_bind {f g : State → Parser α} (h : ∀ s, Raised limit (f s) (g s)) :
    Raised limit (get >>= f) (get >>= g) where
  same s := (h s).same s
  kept htold := (h _).kept htold

instance raised_repeatWithin (step step' : α → Parser (Option α))
    [∀ a, Raised limit (step a) (step' a)] (bound : Nat) (a : α) :
    Raised limit (repeatWithin step bound a) (repeatWithin step' bound a) := by
  induction bound generalizing a with
  | zero => exact raised_refl (pure a)
  | succ bound ih =>
    unfold repeatWithin
    refine @raised_bind _ _ _ _ _ _ _ inferInstance fun r => ?_
    cases r with
    | none => exact raised_refl (pure a)
    | some b => exact ih b

instance raised_repeated (step step' : α → Parser (Option α))
    [∀ a, Raised limit (step a) (step' a)] (a : α) :
    Raised limit (repeated step a) (repeated step' a) := by
  unfold repeated
  infer_instance

instance (step step' : Parser (Option α)) [Raised limit step step'] (first : List α) :
    Raised limit (collect step first) (collect step' first) := by
  unfold collect
  infer_instance

instance (delimiter : Delimiter) (trailing : Bool) (opener : Span) (item item' : Parser α)
    [Raised limit item item'] :
    Raised limit (delimited delimiter trailing opener item)
      (delimited delimiter trailing opener item') := by
  unfold delimited
  dsimp only
  infer_instance

end Cut

section Readers

variable {limit : Nat} {inner inner' : Inner} [∀ e, Raised limit (inner e) (inner' e)]

instance : Raised limit (wholeExpression inner) (wholeExpression inner') := by
  unfold wholeExpression
  infer_instance

instance (source : String) (offset : Nat) :
    Raised limit (embedded inner source offset) (embedded inner' source offset) := by
  unfold embedded
  dsimp only
  split
  · exact raised_refl _
  refine ⟨fun s => ?_, @fun s => @cut_of_log _ _ _ (by split <;> infer_instance) s⟩
  rcases @Raised.same _ limit (wholeExpression inner) (wholeExpression inner')
      _ (State.ofString source offset) with
    heq | hcut
  · exact .inl (by simp only [EStateM.run, heq])
  · refine .inr ?_
    simp only [EStateM.run]
    cases h : wholeExpression inner (State.ofString source offset) with
    | ok e finish =>
      rw [h] at hcut
      obtain ⟨d, hd, htells⟩ := hcut
      exact ⟨d, List.mem_append_right _ hd, htells⟩
    | error d finish =>
      rw [h] at hcut
      exact hcut.imp_right fun ⟨e, he, htells⟩ => ⟨e, List.mem_append_right _ he, htells⟩

instance (segments : List Quoted.Segment) :
    Raised limit (stringParts inner segments) (stringParts inner' segments) := by
  induction segments with
  | nil => exact raised_refl (pure [])
  | cons segment segments ih =>
    cases segment <;>
    · unfold stringParts
      infer_instance

instance (expected : Expectation) :
    Raised limit (string inner expected) (string inner' expected) := by
  unfold string
  refine raised_get_bind fun s => ?_
  dsimp only
  split <;> infer_instance

instance : Raised limit (literal inner) (literal inner') := by
  unfold literal
  refine raised_get_bind fun start => ?_
  dsimp only
  split
  · refine @raised_bind _ _ _ _ _ _ _ inferInstance fun _ => raised_get_bind fun s => ?_
    split <;> infer_instance
  · refine raised_get_bind fun s => ?_
    split <;> infer_instance

instance : Raised limit (fieldPattern inner) (fieldPattern inner') := by
  unfold fieldPattern
  infer_instance

private theorem Tells.widen {d : Diagnostic} (h : Tells limit d) (opener : Span) :
    Tells limit (d.widen opener) := by
  unfold Tells at h ⊢
  rw [Diagnostic.widen, h]
  exact h

instance {α : Type} (delimiter : Delimiter) (opener : Span) (item item' : Parser α)
    [Raised limit item item'] :
    Raised limit (bracketed delimiter opener item) (bracketed delimiter opener item') := by
  unfold bracketed
  refine @raised_bind _ _ _ _ _ _ _ inferInstance fun _ => ?_
  refine @raised_outcome_bind _ _ _ _ _ _ _ inferInstance (fun r => ?_) fun d s htells =>
    .inl (htells.widen opener)
  cases r <;> infer_instance

instance : Raised limit (literalPattern inner) (literalPattern inner') := by
  unfold literalPattern
  dsimp only
  infer_instance

instance : Raised limit (openRangePattern inner) (openRangePattern inner') := by
  unfold openRangePattern
  infer_instance

instance : Raised limit (pattern inner) (pattern inner') := by
  unfold pattern
  refine raised_get_bind fun s => ?_
  dsimp only
  split <;> infer_instance

instance : Raised limit (field inner) (field inner') := by
  unfold field
  dsimp only
  infer_instance

instance (guessed : Bool) : Raised limit (object inner guessed) (object inner' guessed) := by
  unfold object
  dsimp only
  infer_instance

instance : Raised limit (optionalObject inner) (optionalObject inner') := by
  unfold optionalObject
  infer_instance

instance {α : Type} (surroundings : Surroundings) (atEnd : State → Bool)
    (statement statement' : Parser α) [Raised limit statement statement'] :
    Raised limit (statements surroundings atEnd statement)
      (statements surroundings atEnd statement') := by
  unfold statements
  refine @raised_repeated _ _ _ _ (fun items => raised_get_bind fun s => ?_) _
  split
  · infer_instance
  · refine @raised_outcome_bind _ _ _ _ _ _ _ inferInstance (fun r => ?_) fun d t htells => ?_
    · cases r <;> infer_instance
    · exact ⟨d, List.mem_append_right _ (List.mem_singleton_self d), htells⟩

instance (statement statement' : Parser Item) [Raised limit statement statement'] :
    Raised limit (block statement) (block statement') := by
  unfold block
  infer_instance

instance : Raised limit (operation inner) (operation inner') := by
  unfold operation
  dsimp only
  infer_instance

instance : Raised limit (profile inner) (profile inner') := by
  unfold profile
  infer_instance

instance : Raised limit (functionBody inner) (functionBody inner') := by
  unfold functionBody
  infer_instance

instance : Raised limit (function inner) (function inner') := by
  unfold function
  infer_instance

instance : Raised limit (binding inner) (binding inner') := by
  unfold binding
  infer_instance

instance : Raised limit (use inner) (use inner') := by
  unfold use
  dsimp only
  infer_instance

instance : Raised limit (declaration? inner) (declaration? inner') := by
  unfold declaration?
  refine raised_get_bind fun s => ?_
  split <;> infer_instance

instance : Raised limit (item inner) (item inner') := by
  unfold item
  refine @raised_bind _ _ _ _ _ _ _ inferInstance fun d => ?_
  cases d <;> infer_instance

instance : Raised limit (itemBlock inner) (itemBlock inner') := by
  unfold itemBlock
  infer_instance

instance : Raised limit (variations? inner) (variations? inner') := by
  unfold variations?
  dsimp only
  infer_instance

instance (start : Span) : Raised limit (inlineRun inner start) (inlineRun inner' start) := by
  unfold inlineRun
  infer_instance

instance : Raised limit (step inner) (step inner') := by
  unfold step
  dsimp only
  infer_instance

instance : Raised limit (runItem inner) (runItem inner') := by
  unfold runItem
  have rest : ∀ d : Option Decl, Advances (match d with
      | some d => return .decl d
      | none => unexpected .runItem : Parser RunItem) := by
    rintro (_ | d) <;> infer_instance
  infer_instance

instance (start : Span) : Raised limit (runBlock inner start) (runBlock inner' start) := by
  unfold runBlock
  infer_instance

instance : Raised limit (run inner) (run inner') := by
  unfold run
  infer_instance

instance : Raised limit (literalOrRange inner) (literalOrRange inner') := by
  unfold literalOrRange
  dsimp only
  infer_instance

instance : Raised limit (openRange inner) (openRange inner') := by
  unfold openRange
  infer_instance

instance : Raised limit (parenthesized inner) (parenthesized inner') := by
  unfold parenthesized
  infer_instance

instance : Raised limit (array inner) (array inner') := by
  unfold array
  infer_instance

instance : Raised limit (braced inner) (braced inner') := by
  unfold braced
  infer_instance

instance : Raised limit (alternative? inner) (alternative? inner') := by
  unfold alternative?
  infer_instance

instance : Raised limit (conditional inner) (conditional inner') := by
  unfold conditional
  infer_instance

instance : Raised limit (arm inner) (arm inner') := by
  unfold arm
  dsimp only
  infer_instance

instance : Raised limit (choice inner) (choice inner') := by
  unfold choice
  infer_instance

instance : Raised limit (lambda inner) (lambda inner') := by
  unfold lambda
  infer_instance

instance : Raised limit (arguments inner) (arguments inner') := by
  unfold arguments
  infer_instance

instance : Raised limit (emission inner) (emission inner') := by
  unfold emission
  infer_instance

instance : Raised limit (primary inner) (primary inner') := by
  unfold primary
  refine raised_get_bind fun s => ?_
  split <;> infer_instance

instance (e : Expr) : Raised limit (suffix? inner e) (suffix? inner' e) := by
  unfold suffix?
  refine raised_get_bind fun s => ?_
  dsimp only
  split <;> infer_instance

instance : Raised limit (postfixed inner) (postfixed inner') := by
  unfold postfixed
  refine @raised_bind _ _ _ _ _ _ _ inferInstance fun e => ?_
  split <;> infer_instance

instance : Raised limit (unary inner) (unary inner') := by
  unfold unary
  refine raised_get_bind fun s => ?_
  split <;> infer_instance

instance {Op : Type} (operator? : Lexeme → Option Op) (right right' : Op → Parser Expr)
    [∀ op, Raised limit (right op) (right' op)] (combine : Span → Op → Expr → Expr → Expr)
    (left : Expr) :
    Raised limit (extend? operator? right combine left)
      (extend? operator? right' combine left) := by
  unfold extend?
  refine raised_get_bind fun s => ?_
  split
  · infer_instance
  · split <;> infer_instance

instance (minimum : Nat) : Raised limit (climb inner minimum) (climb inner' minimum) := by
  induction minimum using climb.induct with
  | case1 minimum ih =>
    unfold climb
    infer_instance

instance : Raised limit (pipe inner) (pipe inner') := by
  unfold pipe
  infer_instance

end Readers

/-- Room is only missed where it is told of. -/
theorem raised_enter {limit limit' room room' : Nat} (h : room ≤ room') (e : Entry) :
    Raised limit (enter limit room e) (enter limit' room' e) := by
  induction room generalizing room' e with
  | zero =>
    have hcut (s : State) : Cut limit (enter limit 0 e s) := .inl rfl
    exact ⟨fun s => .inr (hcut s), fun _ => hcut _⟩
  | succ room ih =>
    obtain ⟨room', rfl⟩ := Nat.exists_eq_add_of_le' h
    have inner (e : Entry) : Raised limit (enter limit room e) (enter limit' (room' + room) e) :=
      ih (by omega) e
    cases e with
    | expression => exact inferInstanceAs (Raised limit (pipe _) (pipe _))
    | operand => exact inferInstanceAs (Raised limit (unary _) (unary _))
    | alternative => exact inferInstanceAs (Raised limit (conditional _) (conditional _))
    | block => exact inferInstanceAs (Raised limit (itemBlock _) (itemBlock _))
    | pattern => exact inferInstanceAs (Raised limit (pattern _) (pattern _))

instance {limit : Nat} {inner inner' : Inner} [∀ e, Raised limit (inner e) (inner' e)] :
    Raised limit (script inner) (script inner') := by
  unfold script
  infer_instance

end Grammar

theorem parse_raised (source : String) {limit limit' : Nat} (h : limit ≤ limit') :
    parse source limit' = parse source limit ∨ ∃ d ∈ (parse source limit).2,
    d.problem = .tooDeep limit := by
  obtain ⟨finish, hread, hlog⟩ := reads_parse source limit
  obtain ⟨finish', hread', hlog'⟩ := reads_parse source limit'
  have hinner (e : Entry) : Raised limit (enter limit limit e) (enter limit' limit' e) :=
    raised_enter h e
  have hscript : Raised limit (script (enter limit limit)) (script (enter limit' limit')) :=
    inferInstance
  rcases hscript.same (State.ofString source 0) with heq | hcut
  · obtain ⟨hprogram, rfl⟩ := EStateM.Result.ok.inj (hread'.symm.trans (heq.symm.trans hread))
    exact .inl (Prod.ext hprogram (hlog'.trans hlog.symm))
  · rw [show script (enter limit limit) (State.ofString source 0) = .ok _ finish from hread] at hcut
    obtain ⟨d, hd, htells⟩ := hcut
    exact .inr ⟨d, hlog ▸ hd, htells⟩

/-- A higher limit changes nothing for a script of which nothing is told of the limit, be it well
formed or not. -/
theorem parse_of_limit_le (source : String) {limit limit' : Nat} (h : limit ≤ limit')
    (hdeep : ∀ d ∈ (parse source limit).2, ∀ n, d.problem ≠ .tooDeep n) :
    parse source limit' = parse source limit := by
  rcases parse_raised source h with heq | ⟨d, hd, htells⟩
  · exact heq
  · exact absurd htells (hdeep d hd limit)

/-- With one level of nesting to spare or with many, a text with a missing operand is told of in the
same way. -/
theorem parse_of_limit_le_of_failure :
    2 ≤ 48 ∧ (∀ d ∈ (parse "let x = (1 + ) let y = [2]" 2).2, ∀ n, d.problem ≠ .tooDeep n) ∧
      parse "let x = (1 + ) let y = [2]" 48 = parse "let x = (1 + ) let y = [2]" 2 := by
  have hproblems : (parse "let x = (1 + ) let y = [2]" 2).2.map (·.problem) =
      [.missingOperand (.symbol .plus) (some (.symbol .rightParen))] := by decide +kernel
  have hdeep : ∀ d ∈ (parse "let x = (1 + ) let y = [2]" 2).2, ∀ n, d.problem ≠ .tooDeep n := by
    intro d hd n hn
    have hmem := List.mem_map_of_mem (f := (·.problem)) hd
    rw [hproblems, List.mem_singleton, hn] at hmem
    cases hmem
  exact ⟨by decide, hdeep, parse_of_limit_le _ (by decide) hdeep⟩

end ApiScript
