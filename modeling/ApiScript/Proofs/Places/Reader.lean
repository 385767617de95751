import ApiScript.Proofs.Places.Fault
import ApiScript.Proofs.Places.Within

set_option autoImplicit false
set_option relaxedAutoImplicit false
set_option synthInstance.maxSize 2000

/-!
Diagnostics in place: what they point at are places in the source, openers they speak of are tokens
in front of them, and texts they quote are what is written there. Readers are told by this that
report nothing else, whether they succeed or fail, and those that speak of an opener by the opener
that has to be behind them.
-/

namespace ApiScript

open Grammar

def Delimiter.opener : Delimiter → Lexeme
  | parenthesis => .symbol .leftParen
  | bracket => .symbol .leftBracket
  | brace => .symbol .leftBrace
  | bar => .symbol .bar

def Problem.opener? : Problem → Option (Delimiter × Span)
  | unclosed delimiter _ _ opener => some (delimiter, opener)
  | _ => none

def Problem.quoted? : Problem → Option String
  | lexical fault => fault.quoted?
  | _ => none

/-- The span is that of a token that opens the delimiter, in the source or in code embedded in
it. -/
def Delimiter.OpenedAt (source : String) (delimiter : Delimiter) (span : Span) : Prop :=
  ∃ text offset, Excerpt source text offset ∧ ⟨delimiter.opener, span⟩ ∈
    (Lexer.ofString text offset).tokenize.1

/-- A diagnostic about places in the source, and about a text only what a text can be at fault
for. -/
structure Diagnostic.Placed (source : String) (d : Diagnostic) : Prop where
  stands : d.span.Over source.toList
  opener : ∀ delimiter span, d.problem.opener? = some (delimiter, span) →
    span.stop ≤ d.span.start ∧ delimiter.OpenedAt source span
  quoted : ∀ text, d.problem.quoted? = some text →
    Text.slice? d.span.start d.span.stop source.toList = some text.toList
  possible : ∀ fault, d.problem = .lexical fault → fault.Possible

section Excerpts

variable {source text : String} {offset : Nat}

theorem Token.At.over {t : Token} (h : t.At text.toList offset) (he : Excerpt source text offset) :
    t.span.Over source.toList := by
  obtain ⟨front, mid, behind, htext, _, hspan, _⟩ := h
  obtain ⟨left, right, hsource, hoffset⟩ := he.piece htext
  rw [hspan, hoffset]
  exact .piece hsource

theorem LexicalError.At.placed {e : LexicalError} (h : e.At text.toList offset)
    (he : Excerpt source text offset) :
    (Diagnostic.ofLexical e).Placed source := by
  obtain ⟨hpossible, front, piece, behind, htext, hspan, hquoted⟩ := h
  obtain ⟨left, right, hsource, hoffset⟩ := he.piece htext
  rw [hoffset] at hspan
  refine ⟨?_, fun _ _ h => ?_, fun quoted hq => ?_, fun fault h => ?_⟩
  · rw [Diagnostic.ofLexical, hspan]
    exact .piece hsource
  · cases h
  · rw [Diagnostic.ofLexical, hspan, hsource, hquoted quoted hq]
    exact Text.slice?_append left piece right
  · cases h
    exact hpossible

end Excerpts

theorem Diagnostic.Placed.plain {source : String} {d : Diagnostic}
    (hover : d.span.Over source.toList) (hopener : d.problem.opener? = none)
    (hquoted : d.problem.quoted? = none) : d.Placed source where
  stands := hover
  opener _ _ h := by rw [hopener] at h; cases h
  quoted _ h := by rw [hquoted] at h; cases h
  possible _ h := LexicalFault.possible_of_quoted (by rwa [h] at hquoted)

theorem Diagnostic.Placed.widen {source : String} {d : Diagnostic} {opener : Span}
    (h : d.Placed source) (hopener : opener.Over source.toList) :
    (d.widen opener).Placed source := by
  unfold Diagnostic.widen
  split
  · exact h
  · exact h
  · exact .plain (hopener.merge h.stands) rfl rfl
  · exact .plain (hopener.merge h.stands) rfl rfl

namespace Grammar

/-- The state stands in an excerpt of the source, and all that is reported is in place. -/
structure State.Placed (source : String) (s : State) : Prop where
  within : s.Within source
  log : ∀ d ∈ s.log, d.Placed source

def State.Behind (delimiter : Delimiter) (opener : Span) (s : State) : Prop :=
  ⟨delimiter.opener, opener⟩ ∈ s.before

private theorem State.Behind.reaches {delimiter : Delimiter} {opener : Span} {s t : State}
    (h : s.Behind delimiter opener) (ht : Reaches s t) : t.Behind delimiter opener := by
  obtain ⟨ts, hm⟩ := ht
  rw [State.Behind, hm.before]
  exact List.mem_append_right _ h

theorem State.behind_advance {delimiter : Delimiter} {s : State}
    (h : s.current? = some delimiter.opener) :
    s.advance.Behind delimiter s.currentSpan := by
  cases hs : s.after with
  | nil => simp [State.current?, State.peek?, hs] at h
  | cons t ts =>
    have hlexeme : t.lexeme = delimiter.opener := by simpa [State.current?, State.peek?, hs] using h
    simp only [State.Behind, State.advance, State.currentSpan, hs, ← hlexeme, List.mem_cons_self]

namespace State.Placed

variable {source : String} {s t : State}

theorem ofString {text : String} {offset : Nat} (h : Excerpt source text offset) :
    (State.ofString text offset).Placed source where
  within := .ofString h
  log d hd := by
    obtain ⟨e, he, rfl⟩ := List.mem_map.1 hd
    exact (Lexer.tokenize_errors_at text.toList offset e he).placed h

private theorem reaches (h : s.Placed source) (ht : Reaches s t)
    (hlog : ∀ d ∈ t.log, d.Placed source) : t.Placed source :=
  ⟨h.within.reaches ht, hlog⟩

theorem advance (h : s.Placed source) : s.advance.Placed source := by
  refine h.reaches (.advance s) ?_
  rw [State.log_advance]
  exact h.log

theorem report (h : s.Placed source) {ds : List Diagnostic} (hds : ∀ d ∈ ds, d.Placed source) :
    (s.report ds).Placed source :=
  h.reaches (.report s ds) (List.forall_mem_append.2 ⟨h.log, hds⟩)

theorem recover (h : s.Placed source) (surroundings : Surroundings) (start : Nat) :
    (s.recover surroundings start).Placed source := h.reaches (.recover s surroundings start) h.log

private theorem token (h : s.Placed source) {u : Token} (hu : u ∈ s.tokens) :
    u.span.Over source.toList := by
  obtain ⟨text, offset, he, hat⟩ := h.within.tokens
  exact (hat u hu).2.over he

theorem currentSpan (h : s.Placed source) : s.currentSpan.Over source.toList := by
  cases hs : s.after with
  | nil =>
    obtain ⟨text, offset, he, ts, hm⟩ := h.within
    have harea : s.area.stop = offset + Text.byteSize text.toList := by
      rw [hm.area, ← Text.utf8ByteSize_eq]
      rfl
    simp only [State.currentSpan, hs, harea]
    exact .point (he.boundary (.stop _))
  | cons u us =>
    simp only [State.currentSpan, hs]
    exact h.token (State.Sound.mem_after (hs ▸ List.mem_cons_self ..))

private theorem opener (h : s.Placed source) {delimiter : Delimiter} {span : Span}
    (hb : s.Behind delimiter span) :
    span.stop ≤ s.currentSpan.start ∧ delimiter.OpenedAt source span := by
  have hmem : ⟨delimiter.opener, span⟩ ∈ s.tokens := List.mem_append_left _ (List.mem_reverse.2 hb)
  constructor
  · cases hs : s.after with
    | nil =>
      simp only [State.currentSpan, hs]
      exact (h.within.sound.inside _ hmem).2
    | cons u us =>
      have hordered := h.within.sound.ordered
      rw [State.tokens, List.pairwise_append] at hordered
      simp only [State.currentSpan, hs]
      exact hordered.2.2 _ (List.mem_reverse.2 hb) u (hs ▸ List.mem_cons_self ..)
  · obtain ⟨text, offset, he, hat⟩ := h.within.tokens
    exact ⟨text, offset, he, (List.mem_filter.1 (hat _ hmem).1).1⟩

theorem openerSpan (h : s.Placed source) {delimiter : Delimiter} {span : Span}
    (hb : s.Behind delimiter span) :
    span.Over source.toList := h.token (List.mem_append_left _ (List.mem_reverse.2 hb))

end State.Placed

/-- From the state, the reader leads to a placed state, and a failure is placed too. -/
structure LocatesAt {α : Type} (source : String) (p : Parser α) (s : State) : Prop where
  reads {a : α} {t : State} : Reads p s a t → t.Placed source
  fails {d : Diagnostic} {t : State} : Fails p s d t → t.Placed source ∧ d.Placed source

class Locates {α : Type} (source : String) (p : Parser α) : Prop where
  locates {s : State} : s.Placed source → LocatesAt source p s

/-- Readers that do so behind an opener of the delimiter. -/
class LocatesBehind {α : Type} (source : String) (delimiter : Delimiter) (opener : Span)
    (p : Parser α) : Prop where
  locates {s : State} : s.Placed source → s.Behind delimiter opener → LocatesAt source p s

/-- Readers that answer with the span of an opener they have read. -/
class Introduces (delimiter : outParam Delimiter) (p : Parser Span) : Prop where
  reads {s t : State} {opener : Span} : Reads p s opener t → t.Behind delimiter opener

section Combinators

variable {α β : Type} {source : String} {delimiter : Delimiter} {opener : Span} {s : State}

theorem LocatesAt.pure {a : α} (h : s.Placed source) :
    LocatesAt source (Pure.pure a : Parser α) s where
  reads hr := by cases hr; exact h
  fails hf := by cases hf

theorem LocatesAt.throw {d : Diagnostic} (h : s.Placed source) (hd : d.Placed source) :
    LocatesAt source (throw d : Parser α) s where
  reads hr := by cases hr
  fails hf := by cases hf; exact ⟨h, hd⟩

theorem LocatesAt.bind {p : Parser α} {f : α → Parser β} (hp : LocatesAt source p s)
    (h : ∀ a t, Reads p s a t → t.Placed source → LocatesAt source (f a) t) :
    LocatesAt source (p >>= f) s where
  reads hr := by
    obtain ⟨a, t, ha, hr⟩ := reads_bind.1 hr
    exact (h a t ha (hp.reads ha)).reads hr
  fails hf := by
    rcases fails_bind.1 hf with hf | ⟨a, t, ha, hf⟩
    · exact hp.fails hf
    · exact (h a t ha (hp.reads ha)).fails hf

theorem LocatesAt.get_bind {f : State → Parser α} (h : LocatesAt source (f s) s) :
    LocatesAt source (get >>= f) s :=
  ⟨h.reads, h.fails⟩

theorem LocatesAt.advance_bind {f : Unit → Parser α} (h : LocatesAt source (f ()) s.advance) :
    LocatesAt source (advance >>= f) s := ⟨h.reads, h.fails⟩

theorem LocatesAt.outcome_bind {p : Parser α} {f : Except Diagnostic α → Parser β}
    (hp : LocatesAt source p s) (hok : ∀ a t, t.Placed source → LocatesAt source (f (.ok a)) t)
    (herror : ∀ d t, t.Placed source → d.Placed source → LocatesAt source (f (.error d)) t) :
    LocatesAt source (outcome p >>= f) s := by
  have hrest {r : Except Diagnostic α} {t : State} (hr : Reads (outcome p) s r t) :
      LocatesAt source (f r) t := by
    rcases reads_outcome.1 hr with ⟨a, rfl, ha⟩ | ⟨d, rfl, hd⟩
    · exact hok a t (hp.reads ha)
    · exact herror d t (hp.fails hd).1 (hp.fails hd).2
  constructor
  · intro b u hr
    obtain ⟨r, t, ha, hr⟩ := reads_bind.1 hr
    exact (hrest ha).reads hr
  · intro d u hf
    rcases fails_bind.1 hf with hf | ⟨r, t, ha, hf⟩
    · unfold Fails outcome at hf
      split at hf <;> cases hf
    · exact (hrest ha).fails hf

instance (a : α) : Locates source (pure a : Parser α) := ⟨.pure⟩

instance : Locates source (get : Parser State) where
  locates h := ⟨fun hr => by cases hr; exact h, fun hf => by cases hf⟩

instance : Locates source advance where
  locates h := ⟨fun hr => by cases hr; exact h.advance, fun hf => by cases hf⟩

instance locates_bind (p : Parser α) (f : α → Parser β) [Locates source p]
    [∀ a, Locates source (f a)] :
    Locates source (p >>= f) where
  locates h := (Locates.locates h).bind fun _ _ _ ht => Locates.locates ht

theorem Locates.get_bind {f : State → Parser α}
    (h : ∀ s, s.Placed source → LocatesAt source (f s) s) :
    Locates source (get >>= f) := ⟨fun hs => .get_bind (h _ hs)⟩

instance (p : Parser α) (f : α → β) [Locates source p] : Locates source (f <$> p) :=
  inferInstanceAs (Locates source (p >>= fun a => pure (f a)))

instance (c : Prop) [Decidable c] (p q : Parser α) [Locates source p] [Locates source q] :
    Locates source (if c then p else q) := by
  split <;> assumption

instance (question : State → α) : Locates source (ask question) :=
  inferInstanceAs (Locates source (question <$> get))

instance (priority := low) (p : Parser α) [Locates source p] :
    LocatesBehind source delimiter opener p where
  locates h _ := Locates.locates h

instance locatesBehind_bind (p : Parser α) (f : α → Parser β) [Advances p]
    [LocatesBehind source delimiter opener p] [∀ a, LocatesBehind source delimiter opener (f a)] :
    LocatesBehind source delimiter opener (p >>= f) where
  locates h hb := (LocatesBehind.locates h hb).bind fun _ _ ha ht =>
    LocatesBehind.locates ht (hb.reaches (Advances.reads ha))

theorem LocatesBehind.get_bind {f : State → Parser α}
    (h : ∀ s, s.Placed source → s.Behind delimiter opener → LocatesAt source (f s) s) :
    LocatesBehind source delimiter opener (get >>= f) := ⟨fun hs hb => .get_bind (h _ hs hb)⟩

instance (c : Prop) [Decidable c] (p q : Parser α) [LocatesBehind source delimiter opener p]
    [LocatesBehind source delimiter opener q] :
    LocatesBehind source delimiter opener (if c then p else q) := by
  split <;> assumption

instance (p : Parser Span) (f : Span → Parser α) [Locates source p] [Introduces delimiter p]
    [∀ opener, LocatesBehind source delimiter opener (f opener)] : Locates source (p >>= f) where
  locates h :=
    (Locates.locates h).bind fun _ _ ha ht => LocatesBehind.locates ht (Introduces.reads ha)

end Combinators

section Basics

variable {α : Type} {source : String} {delimiter : Delimiter} {opener : Span}

theorem LocatesAt.unexpected {expected : Expectation} {s : State} (h : s.Placed source) :
    LocatesAt source (unexpected expected : Parser α) s := by
  refine .get_bind (.throw h ?_)
  have hspan : (s.unexpected expected).span = s.currentSpan := by
    unfold State.unexpected State.currentSpan State.current? State.peek?
    cases s.after <;> rfl
  refine .plain (hspan ▸ h.currentSpan) ?_ ?_
  all_goals
    unfold State.unexpected
    split <;> rfl

instance (expected : Expectation) : Locates source (unexpected expected : Parser α) := ⟨.unexpected⟩

instance (l : Lexeme) : Locates source (expect l) := by
  unfold expect
  refine .get_bind fun s h => ?_
  split
  · exact .advance_bind (.pure h.advance)
  · exact .unexpected h

private theorem introduces_expect (delimiter : Delimiter) :
    Introduces delimiter (expect delimiter.opener) where
  reads h := by
    obtain ⟨hs, rfl, rfl⟩ := reads_expect.1 h
    exact State.behind_advance (State.current?_of_sees hs)

instance : Introduces .parenthesis (expect (.symbol .leftParen)) := introduces_expect .parenthesis

instance : Introduces .bracket (expect (.symbol .leftBracket)) := introduces_expect .bracket

instance : Introduces .brace (expect (.symbol .leftBrace)) := introduces_expect .brace

instance : Introduces .bar (expect (.symbol .bar)) := introduces_expect .bar

instance (l : Lexeme) : Locates source (accept l) := by
  unfold accept
  infer_instance

instance (expected : Expectation) : Locates source (name expected) := by
  unfold name
  refine .get_bind fun s h => ?_
  split
  · exact .advance_bind (.pure h.advance)
  · exact .unexpected h

instance (list : Bool) : LocatesBehind source delimiter opener (close delimiter list opener) := by
  unfold close
  refine .get_bind fun s h hb => ?_
  split
  · exact .advance_bind (.pure h.advance)
  · refine .throw h ⟨h.currentSpan, ?_, ?_, ?_⟩
    · rintro _ _ ⟨⟩
      exact h.opener hb
    · rintro _ ⟨⟩
    · rintro _ ⟨⟩

instance (operator : Lexeme) : Locates source (operand operator) := by
  unfold operand
  refine .get_bind fun s h => ?_
  split
  · exact .pure h
  · exact .throw h (.plain h.currentSpan rfl rfl)

instance (step : α → Parser (Option α)) [∀ a, Locates source (step a)] (bound : Nat) (a : α) :
    Locates source (repeatWithin step bound a) := by
  induction bound generalizing a with
  | zero => exact inferInstanceAs (Locates source (pure a))
  | succ bound ih =>
    unfold repeatWithin
    have rest : ∀ r : Option α, Locates source (match r with
        | none => pure a
        | some b => repeatWithin step bound b : Parser α) := by
      rintro (_ | b)
      · exact inferInstanceAs (Locates source (pure a))
      · exact ih b
    infer_instance

instance (step : α → Parser (Option α)) [∀ a, Locates source (step a)] (a : α) :
    Locates source (repeated step a) := by
  unfold repeated
  infer_instance

instance (step : Parser (Option α)) [Locates source step] (first : List α) :
    Locates source (collect step first) := by
  unfold collect
  infer_instance

instance (trailing : Bool) (item : Parser α) [Advances item] [Locates source item] :
    LocatesBehind source delimiter opener (delimited delimiter trailing opener item) := by
  unfold delimited
  dsimp only
  infer_instance

end Basics

end Grammar

end ApiScript
