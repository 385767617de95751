import ApiScript.Proofs.Reading.Progress

set_option autoImplicit false
set_option relaxedAutoImplicit false

/-!
The loops of the grammar, told by their rounds. A loop is bounded by the number of tokens ahead,
which a round with an answer makes smaller, so that its bound never ends it.
-/

namespace ApiScript.Grammar

variable {α : Type}

/-- The rounds of a step that is repeated on its own answer until it has none. -/
inductive Rounds (step : α → Parser (Option α)) : α → State → α → State → Prop
  | done {a : α} {s t : State} (h : Reads (step a) s none t) : Rounds step a s a t
  | more {a b c : α} {s t u : State} (h : Reads (step a) s (some b) t)
    (rest : Rounds step b t c u) :
    Rounds step a s c u

/-- Steps whose answers come with a token left behind. -/
def Productive (step : α → Parser (Option α)) : Prop :=
  ∀ ⦃a b : α⦄ ⦃s t : State⦄, Reads (step a) s (some b) t → t.after.length < s.after.length

private theorem reads_repeatWithin {step : α → Parser (Option α)} (hstep : Productive step)
    {bound : Nat} {a c : α} {s u : State} (hbound : s.after.length < bound) :
    Reads (repeatWithin step bound a) s c u ↔ Rounds step a s c u := by
  induction bound generalizing a s with
  | zero => omega
  | succ bound ih =>
    simp only [repeatWithin, reads_bind]
    constructor
    · rintro ⟨r, t, hr, h⟩
      cases r with
      | none =>
        obtain ⟨rfl, rfl⟩ := reads_pure.1 h
        exact .done hr
      | some b =>
        have hlt := hstep hr
        exact .more hr ((ih (by omega)).1 h)
    · intro h
      cases h with
      | done hr => exact ⟨none, u, hr, reads_pure.2 ⟨rfl, rfl⟩⟩
      | more hr rest =>
        have hlt := hstep hr
        exact ⟨_, _, hr, (ih (by omega)).2 rest⟩

theorem reads_repeated {step : α → Parser (Option α)} (hstep : Productive step) {a c : α}
    {s u : State} :
    Reads (repeated step a) s c u ↔ Rounds step a s c u := by
  unfold repeated
  rw [reads_get_bind]
  exact reads_repeatWithin hstep (Nat.lt_succ_self _)

/-- The answers of a step that is repeated until it has none. -/
inductive Collects (step : Parser (Option α)) : State → List α → State → Prop
  | done {s t : State} (h : Reads step s none t) : Collects step s [] t
  | more {s t u : State} {a : α} {as : List α} (h : Reads step s (some a) t)
    (rest : Collects step t as u) :
    Collects step s (a :: as) u

theorem reads_collect {step : Parser (Option α)}
    (hstep : ∀ {s t : State} {a : α}, Reads step s (some a) t → t.after.length < s.after.length)
    {first items : List α} {s u : State} :
    Reads (collect step first) s items u ↔ ∃ rest, items = first ++ rest ∧
    Collects step s rest u := by
  have answer {done : List α} {s t : State} {r : Option (List α)} :
      Reads (do return (← step).map (done ++ [·]) : Parser (Option (List α))) s r t ↔
        ∃ a, Reads step s a t ∧ r = a.map (done ++ [·]) := by
    simp only [reads_bind, reads_pure]
    constructor
    · rintro ⟨a, _, h, hr, rfl⟩
      exact ⟨a, h, hr⟩
    · rintro ⟨a, h, hr⟩
      exact ⟨a, t, h, hr, rfl⟩
  rw [collect, reads_repeated fun _ _ _ _ h => by
    obtain ⟨_ | a, ha, hr⟩ := answer.1 h
    · cases hr
    · exact hstep ha]
  constructor
  · intro h
    induction h with
    | done h =>
      obtain ⟨_ | a, ha, hr⟩ := answer.1 h
      · exact ⟨[], (List.append_nil _).symm, .done ha⟩
      · cases hr
    | more h _ ih =>
      obtain ⟨_ | a, ha, hr⟩ := answer.1 h
      · cases hr
      · cases hr
        obtain ⟨rest, rfl, hrest⟩ := ih
        exact ⟨a :: rest, by rw [List.append_assoc, List.singleton_append], .more ha hrest⟩
  · rintro ⟨rest, rfl, h⟩
    induction h generalizing first with
    | done h =>
      rw [List.append_nil]
      exact .done (answer.2 ⟨none, h, rfl⟩)
    | @more _ _ _ a _ h _ ih =>
      refine .more (answer.2 ⟨some a, h, rfl⟩) ?_
      simpa only [List.append_assoc, List.singleton_append] using @ih (first ++ [a])

/-- The items behind the first one, up to the closer; the comma in front of it is read with them. -/
inductive Continues (closer : Lexeme) (trailing : Bool) (item : Parser α) :
    State → List α → State → Prop
  | bare {s : State} (h : ¬s.sees (.symbol .comma)) : Continues closer trailing item s [] s
  | comma {s : State} (h : s.sees (.symbol .comma)) (allowed : trailing = true)
    (hc : s.advance.sees closer) :
    Continues closer trailing item s [] s.advance
  | more {s t u : State} {a : α} {as : List α} (h : s.sees (.symbol .comma))
    (open_ : ¬(trailing = true ∧ s.advance.sees closer)) (ha : Reads item s.advance a t)
    (rest : Continues closer trailing item t as u) : Continues closer trailing item s (a :: as) u

/-- The items between an opener and its closer. -/
theorem reads_delimited {delimiter : Delimiter} {trailing : Bool} {opener : Span} {item : Parser α}
    [Advances item] {r : List α × Span} {s u : State} :
    Reads (delimited delimiter trailing opener item) s r u ↔
      s.sees delimiter.closer ∧ r = ([], s.currentSpan) ∧ u = s.advance ∨
      ¬s.sees delimiter.closer ∧ ∃ a s₁ as s₂, Reads item s a s₁ ∧
        Continues delimiter.closer trailing item s₁ as s₂ ∧ s₂.sees delimiter.closer ∧
        r = (a :: as, s₂.currentSpan) ∧ u = s₂.advance := by
  let step : Parser (Option α) := do
    if ← accept (.symbol .comma) then
      if trailing ∧ (← get).sees delimiter.closer then return none
      return some (← item)
    else
      return none
  have hnone {s t : State} : Reads step s none t ↔ ¬s.sees (.symbol .comma) ∧ t = s ∨
      s.sees (.symbol .comma) ∧ trailing = true ∧ s.advance.sees delimiter.closer ∧
      t = s.advance := by
    by_cases h : s.sees (.symbol .comma) <;>
    simp [step, reads_bind, reads_accept, reads_ite, reads_get, reads_pure, reads_map, h, and_assoc]
  have hsome {s t : State} {a : α} : Reads step s (some a) t ↔ s.sees (.symbol .comma) ∧
      ¬(trailing = true ∧ s.advance.sees delimiter.closer) ∧ Reads item s.advance a t := by
    by_cases h : s.sees (.symbol .comma) <;>
    simp [step, reads_bind, reads_accept, reads_ite, reads_get, reads_pure, reads_map, h, and_assoc]
  have hstep {s t : State} {a : α} (h : Reads step s (some a) t) :
      t.after.length < s.after.length := by
    obtain ⟨hs, _, ht⟩ := hsome.1 h
    exact Nat.lt_of_le_of_lt (Advances.reads ht).length_le
      (State.advance_shorter (State.current?_of_sees hs))
  have hrest {s t : State} {as : List α} :
      Collects step s as t ↔ Continues delimiter.closer trailing item s as t := by
    constructor
    · intro h
      induction h with
      | done h =>
        rcases hnone.1 h with ⟨hs, rfl⟩ | ⟨hs, allowed, hc, rfl⟩
        · exact .bare hs
        · exact .comma hs allowed hc
      | more h _ ih =>
        obtain ⟨hs, open_, ha⟩ := hsome.1 h
        exact .more hs open_ ha ih
    · intro h
      induction h with
      | bare hs => exact .done (hnone.2 (.inl ⟨hs, rfl⟩))
      | comma hs allowed hc => exact .done (hnone.2 (.inr ⟨hs, allowed, hc, rfl⟩))
      | more hs open_ ha _ ih => exact .more (hsome.2 ⟨hs, open_, ha⟩) ih
  have unfolded : Reads (delimited delimiter trailing opener item) s r u ↔
      s.sees delimiter.closer ∧ Reads (do
        let closer ← close delimiter true opener
        return ([], closer)) s r u ∨
      ¬s.sees delimiter.closer ∧ Reads (do
        let items ← collect step [← item]
        let closer ← close delimiter true opener
        return (items, closer)) s r u := by
    unfold delimited
    rw [reads_get_bind, reads_ite]
    simp only [reads_bind, reads_pure, and_assoc, exists_and_left, exists_eq_left, step]
  rw [unfolded]
  simp only [reads_bind, reads_close, reads_pure, reads_collect hstep, hrest]
  constructor
  · rintro (⟨hs, _, _, ⟨_, rfl, rfl⟩, rfl, rfl⟩ |
      ⟨hs, a, s₁, ha, items, s₂, ⟨as, rfl, has⟩, _, _, ⟨hc, rfl, rfl⟩, rfl, rfl⟩)
    · exact .inl ⟨hs, rfl, rfl⟩
    · exact .inr ⟨hs, a, s₁, as, s₂, ha, has, hc, rfl, rfl⟩
  · rintro (⟨hs, rfl, rfl⟩ | ⟨hs, a, s₁, as, s₂, ha, has, hc, rfl, rfl⟩)
    · exact .inl ⟨hs, _, _, ⟨hs, rfl, rfl⟩, rfl, rfl⟩
    · exact .inr ⟨hs, a, s₁, ha, _, s₂, ⟨as, rfl, has⟩, _, _, ⟨hc, rfl, rfl⟩, rfl, rfl⟩

/-- The fields of an object, up to what follows them; `more` says whether another field may
follow. -/
inductive Fields (inner : Inner) : Bool → State → List Field → State → Prop
  | done {more : Bool} {s : State} (h : ¬(more = true ∧ ¬s.sees (.symbol .rightBrace))) :
    Fields inner more s [] s
  | more {s t u v : State} {f : Field} {b : Bool} {fs : List Field}
    (h : ¬s.sees (.symbol .rightBrace))
    (hf : Reads (field inner) s f t) (hb : Reads (accept (.symbol .comma)) t b u)
    (rest : Fields inner b u fs v) :
    Fields inner true s (f :: fs) v

section Statements

variable {inner : Inner} [∀ e, Advances (inner e)] {s t u : State}

private theorem object_rounds (inner : Inner) (guessed : Bool) :
    ∃ step : List Field × Bool → Parser (Option (List Field × Bool)),
    (∀ {s u : State} {o : Object}, Reads (object inner guessed) s o u ↔ ∃ r t,
    s.sees (.symbol .leftBrace) ∧
      Reads (repeated step ([], true)) s.advance r t ∧
      ¬(guessed ∧ ¬t.sees (.symbol .rightBrace) ∧ ¬t.atEnd) ∧
      t.sees (.symbol .rightBrace) ∧ o = ⟨r.1, s.currentSpan.merge t.currentSpan⟩ ∧ u = t.advance) ∧
    (∀ {fields : List Field} {more : Bool} {s t : State}, Reads (step (fields, more)) s none t ↔
      ¬(more = true ∧ ¬s.sees (.symbol .rightBrace)) ∧ t = s) ∧
    ∀ {fields fields' : List Field} {more more' : Bool} {s t : State},
      Reads (step (fields, more)) s (some (fields', more')) t ↔
      (more = true ∧ ¬s.sees (.symbol .rightBrace)) ∧
        ∃ f u, Reads (field inner) s f u ∧ Reads (accept (.symbol .comma)) u more' t ∧
        fields' = fields ++ [f] := by
  refine ⟨?step, ?unfolded, ?none, ?some⟩
  case unfolded =>
    intro s u o
    unfold object
    simp only [reads_bind, reads_ite, reads_get, reads_pure, reads_expect, reads_close, reads_throw,
      and_assoc, exists_and_left, exists_eq_left, exists_false, false_and, and_false, false_or]
    exact Iff.rfl
  case none =>
    intro fields more s t
    simp [reads_bind, reads_ite, reads_get, reads_pure, reads_map, and_assoc]
  case some =>
    intro fields fields' more more' s t
    simp only [reads_bind, reads_ite, reads_get, reads_pure, and_assoc, exists_and_left,
      exists_eq_left, Option.some.injEq, Prod.mk.injEq, reduceCtorEq, false_and, and_false,
      or_false]
    constructor
    · rintro ⟨hmore, hs, f, u, hf, more, _, hb, rfl, rfl, rfl⟩
      exact ⟨hmore, hs, f, u, hf, hb, rfl⟩
    · rintro ⟨hmore, hs, f, u, hf, hb, rfl⟩
      exact ⟨hmore, hs, f, u, hf, more', t, hb, rfl, rfl, rfl⟩

theorem reads_object {guessed : Bool} {o : Object} :
    Reads (object inner guessed) s o u ↔ ∃ t, s.sees (.symbol .leftBrace) ∧
    Fields inner true s.advance o.fields t ∧
      ¬(guessed ∧ ¬t.sees (.symbol .rightBrace) ∧ ¬t.atEnd) ∧ t.sees (.symbol .rightBrace) ∧
      o = ⟨o.fields, s.currentSpan.merge t.currentSpan⟩ ∧ u = t.advance := by
  obtain ⟨step, unfolded, hnone, hsome⟩ := object_rounds inner guessed
  have hstep : Productive step := by
    rintro ⟨fields, more⟩ ⟨fields', more'⟩ s t h
    obtain ⟨_, f, u, hf, hb, _⟩ := hsome.1 h
    exact Nat.lt_of_le_of_lt (Advances.reads hb).length_le (Consumes.shorter hf)
  have hrounds {a r : List Field × Bool} {s u : State} :
      Rounds step a s r u → ∃ fs, r.1 = a.1 ++ fs ∧ Fields inner a.2 s fs u := by
    intro h
    induction h with
    | done h =>
      obtain ⟨hs, rfl⟩ := hnone.1 h
      exact ⟨[], (List.append_nil _).symm, .done hs⟩
    | more h _ ih =>
      obtain ⟨fs, hr, hfs⟩ := ih
      obtain ⟨⟨hmore, hs⟩, f, u, hf, hb, hfields⟩ := hsome.1 h
      rw [hfields, List.append_assoc, List.singleton_append] at hr
      rw [hmore]
      exact ⟨f :: fs, hr, .more hs hf hb hfs⟩
  have hback {more : Bool} {fields fs : List Field} {s u : State} (h : Fields inner more s fs u) :
      ∃ b, Rounds step (fields, more) s (fields ++ fs, b) u := by
    induction h generalizing fields with
    | @done more s h =>
      rw [List.append_nil]
      exact ⟨more, .done (hnone.2 ⟨h, rfl⟩)⟩
    | @more _ _ _ _ f _ _ h hf hb _ ih =>
      obtain ⟨b, hb'⟩ := @ih (fields ++ [f])
      rw [List.append_assoc, List.singleton_append] at hb'
      exact ⟨b, .more (hsome.2 ⟨⟨rfl, h⟩, f, _, hf, hb, rfl⟩) hb'⟩
  simp only [unfolded, reads_repeated hstep]
  constructor
  · rintro ⟨r, t, hs, hr, hg, hc, rfl, rfl⟩
    obtain ⟨fs, hfs, hfields⟩ := hrounds hr
    rw [List.nil_append] at hfs
    exact ⟨t, hs, hfs ▸ hfields, hg, hc, rfl, rfl⟩
  · rintro ⟨t, hs, hfields, hg, hc, ho, rfl⟩
    obtain ⟨b, hb⟩ := hback hfields
    exact ⟨_, t, hs, hb, hg, hc, ho, rfl⟩

/-- A failed statement is left behind, or at least its first token. -/
theorem recover_shorter (surroundings : Surroundings) (h : Reaches s t) (hs : s.after ≠ []) :
    (t.recover surroundings s.before.length).after.length < s.after.length := by
  obtain ⟨ts, h⟩ := h
  have hlength := h.length
  have hafter := (Reaches.recover t surroundings s.before.length).length_le
  cases ts with
  | cons => 
    rw [List.length_cons] at hlength
    omega
  | nil =>
    have hbefore : t.before = s.before := h.before
    have hnext : t.after = s.after := h.after.symm
    obtain ⟨next, ts, hs⟩ := List.exists_cons_of_ne_nil hs
    simp only [State.recover, hbefore, hnext, hs, skip, beq_self_eq_true]
    obtain ⟨us, hus, -⟩ :=
      skip_moves surroundings false (openBrackets 0 next.lexeme) (next :: s.before) ts
    have := congrArg List.length hus
    rw [List.length_append] at this
    simp
    omega

/-- The statements of a loop, up to its end. One that fails is left out, and reading resumes behind
it. -/
inductive Listed (surroundings : Surroundings) (atEnd : State → Bool) (statement : Parser α) :
    State → List α → State → Prop
  | done {s : State} (h : atEnd s) : Listed surroundings atEnd statement s [] s
  | read {s t u : State} {a : α} {as : List α} (h : ¬atEnd s) (ha : Reads statement s a t)
    (rest : Listed surroundings atEnd statement t as u) :
    Listed surroundings atEnd statement s (a :: as) u
  | resume {s t u : State} {d : Diagnostic} {as : List α} (h : ¬atEnd s)
    (hd : Fails statement s d t) (rest : Listed surroundings atEnd statement
      ((t.report [d]).recover surroundings s.before.length) as u) :
    Listed surroundings atEnd statement s as u

theorem reads_statements_round {surroundings : Surroundings} {atEnd : State → Bool}
    {statement : Parser α} {items : List α} {r : Option (List α)} {s t : State} :
    Reads (do
      let s ← get
      if atEnd s then return none
      match ← outcome statement with
      | .ok item => return some (items ++ [item])
      | .error d =>
        modify fun t => (t.report [d]).recover surroundings s.before.length
        return some items) s r t ↔
      atEnd s ∧ r = none ∧ t = s ∨ ¬atEnd s ∧
        ((∃ a, Reads statement s a t ∧ r = some (items ++ [a])) ∨
        ∃ d u, Fails statement s d u ∧ t = (u.report [d]).recover surroundings s.before.length ∧
        r = some items) := by
  simp only [reads_bind, reads_get, reads_ite, reads_pure, reads_outcome, and_assoc,
    exists_and_left, exists_eq_left]
  refine or_congr_right (and_congr_right fun _ => ⟨?_, ?_⟩)
  · rintro ⟨o, u, ⟨a, rfl, ha⟩ | ⟨d, rfl, hd⟩, h⟩
    · obtain ⟨rfl, rfl⟩ := reads_pure.1 h
      exact .inl ⟨a, ha, rfl⟩
    · simp only [reads_bind, reads_modify, reads_pure, exists_const, exists_eq_left] at h
      exact .inr ⟨d, u, hd, h.2, h.1⟩
  · rintro (⟨a, ha, rfl⟩ | ⟨d, u, hd, rfl, rfl⟩)
    · exact ⟨.ok a, t, .inl ⟨a, rfl, ha⟩, reads_pure.2 ⟨rfl, rfl⟩⟩
    · refine ⟨.error d, u, .inr ⟨d, rfl, hd⟩, ?_⟩
      simp only [reads_bind, reads_modify, reads_pure, exists_const, exists_eq_left, and_self]

private theorem statements_rounds (surroundings : Surroundings) (atEnd : State → Bool)
    (statement : Parser α) :
    ∃ step : List α → Parser (Option (List α)),
      statements surroundings atEnd statement = repeated step [] ∧
      ∀ {items : List α} {r : Option (List α)} {s t : State}, Reads (step items) s r t ↔
        atEnd s ∧ r = none ∧ t = s ∨ ¬atEnd s ∧
        ((∃ a, Reads statement s a t ∧ r = some (items ++ [a])) ∨
          ∃ d u, Fails statement s d u ∧ t = (u.report [d]).recover surroundings s.before.length ∧
            r = some items) :=
  ⟨_, rfl, reads_statements_round⟩

theorem atBlockEnd_of_atEnd (s : State) (h : s.atEnd) : atBlockEnd s := by
  rw [atBlockEnd, h, Bool.or_true]

theorem reads_statements {surroundings : Surroundings} {atEnd : State → Bool} {statement : Parser α}
    [Advances statement] [Consumes statement] (hend : ∀ s : State, s.atEnd → atEnd s)
    {items : List α} :
    Reads (statements surroundings atEnd statement) s items u ↔
      Listed surroundings atEnd statement s items u := by
  obtain ⟨step, hstatements, hanswer⟩ := statements_rounds surroundings atEnd statement
  have hnone {items : List α} {s t : State} : Reads (step items) s none t ↔ atEnd s ∧ t = s := by
    simp only [hanswer, reduceCtorEq, and_false, exists_false, or_false, true_and]
  have hsome {items items' : List α} {s t : State} : Reads (step items) s (some items') t ↔
      ¬atEnd s ∧ ((∃ a, Reads statement s a t ∧ items' = items ++ [a]) ∨
        ∃ d u, Fails statement s d u ∧ t = (u.report [d]).recover surroundings s.before.length ∧
          items' = items) := by
    simp only [hanswer, reduceCtorEq, false_and, and_false, false_or, Option.some.injEq]
  have hstep : Productive step := by
    intro items items' s t h
    obtain ⟨hs, ⟨a, ha, _⟩ | ⟨d, u, hd, rfl, _⟩⟩ := hsome.1 h
    · exact Consumes.shorter ha
    · refine recover_shorter surroundings ((Advances.fails hd).trans (.report _ _)) fun hnil =>
        hs (hend s ?_)
      simp only [State.atEnd, hnil, List.isEmpty_nil]
  have hrounds {first items : List α} {s u : State} :
      Rounds step first s items u ↔ ∃ rest, items = first ++ rest ∧
      Listed surroundings atEnd statement s rest u := by
    constructor
    · intro h
      induction h with
      | done h =>
        obtain ⟨hs, rfl⟩ := hnone.1 h
        exact ⟨[], (List.append_nil _).symm, .done hs⟩
      | more h _ ih =>
        obtain ⟨rest, rfl, hrest⟩ := ih
        obtain ⟨hs, ⟨a, ha, rfl⟩ | ⟨d, u, hd, rfl, rfl⟩⟩ := hsome.1 h
        · exact ⟨a :: rest, by rw [List.append_assoc, List.singleton_append], .read hs ha hrest⟩
        · exact ⟨rest, rfl, .resume hs hd hrest⟩
    · rintro ⟨rest, rfl, h⟩
      induction h generalizing first with
      | done hs =>
        rw [List.append_nil]
        exact .done (hnone.2 ⟨hs, rfl⟩)
      | @read _ _ _ a _ hs ha _ ih =>
        refine .more (hsome.2 ⟨hs, .inl ⟨a, ha, rfl⟩⟩) ?_
        simpa only [List.append_assoc, List.singleton_append] using @ih (first ++ [a])
      | resume hs hd _ ih => exact .more (hsome.2 ⟨hs, .inr ⟨_, _, hd, rfl, rfl⟩⟩) ih
  rw [hstatements, reads_repeated hstep, hrounds]
  simp only [List.nil_append, exists_eq_left']

end Statements

section Ends

variable {s t : State}

private theorem fails_repeatWithin {step : α → Parser (Option α)}
    (hstep : ∀ a s d t, ¬Fails (step a) s d t) (bound : Nat) (a : α) (s : State) (d : Diagnostic)
    (t : State) : ¬Fails (repeatWithin step bound a) s d t := by
  induction bound generalizing a s with
  | zero => exact fun h => nomatch h
  | succ bound ih =>
    intro h
    rcases fails_bind.1 h with h | ⟨r, u, _, h⟩
    · exact hstep a s d t h
    · cases r with
      | none => cases h
      | some b => exact ih b u h

theorem fails_statements {surroundings : Surroundings} {atEnd : State → Bool} {statement : Parser α}
    {d : Diagnostic} : ¬Fails (statements surroundings atEnd statement) s d t := by
  intro h
  rcases fails_bind.1 h with h | ⟨u, _, hu, h⟩
  · cases h
  · refine fails_repeatWithin (fun items s d t h => ?_) _ _ _ _ _ h
    rcases fails_bind.1 h with h | ⟨v, _, hv, h⟩
    · cases h
    · split at h
      · cases h
      · rcases fails_bind.1 h with h | ⟨r, w, hr, h⟩
        · simp only [Fails, outcome] at h
          split at h <;> cases h
        · cases r <;> cases h

theorem Listed.atEnd {surroundings : Surroundings} {atEnd : State → Bool} {statement : Parser α}
    {as : List α} (h : Listed surroundings atEnd statement s as t) : atEnd t = true := by
  induction h with
  | done h => exact h
  | read _ _ _ ih => exact ih
  | resume _ _ _ ih => exact ih

end Ends

section Quiet

variable {α : Type} {s t u : State}

theorem Collects.reaches {step : Parser (Option α)} [Advances step] {as : List α}
    (h : Collects step s as t) :
    Reaches s t := by
  induction h with
  | done h => exact Advances.reads h
  | more h _ ih => exact (Advances.reads h).trans ih

variable {surroundings : Surroundings} {atEnd : State → Bool} {statement : Parser α}
    [Advances statement] {as : List α}

theorem Listed.reaches (h : Listed surroundings atEnd statement s as t) : Reaches s t := by
  induction h with
  | done => exact .refl _
  | read _ ha _ ih => exact (Advances.reads ha).trans ih
  | @resume s u _ d _ _ hd _ ih =>
    exact ((Advances.fails hd).trans (.report u [d])).trans
      ((Reaches.recover _ surroundings s.before.length).trans ih)

theorem Listed.resumed {d : Diagnostic} (hd : Fails statement s d u)
    (h : Listed surroundings atEnd statement
      ((u.report [d]).recover surroundings s.before.length) as t) :
    t.log ≠ s.log := by
  intro hlog
  have hfailed : s.log.length ≤ u.log.length := (Advances.fails hd).log.length_le
  have hrest : (u.log ++ [d]).length ≤ t.log.length := h.reaches.log.length_le
  rw [hlog, List.length_append, List.length_singleton] at hrest
  omega

end Quiet

end ApiScript.Grammar
