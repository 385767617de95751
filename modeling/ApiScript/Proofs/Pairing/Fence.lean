import ApiScript.Proofs.Recovery.Brackets

set_option autoImplicit false
set_option relaxedAutoImplicit false

/-!
Tokens that reading is to stop in front of: those of a text that begins with a declaration, behind
another text whose brackets are closed. Recovery from what fails in front of them does not pass
them.
-/

namespace ApiScript.Grammar

/-- Tokens that a declaration begins with, behind all that is read; none, where everything may be
read. What is read ends at `bound` at the latest. -/
structure Fence where
  tokens : List Token
  bound : Nat
  keyword : ∀ t ∈ tokens.head?, t.lexeme.opensDeclaration = true ∧ t.span.start ≤ bound
  declares : State.startsStep tokens = false

abbrev Fence.atEnd (bound : Nat) : Fence where
  tokens := []
  bound := bound
  keyword _ ht := absurd ht (Option.not_mem_none _)
  declares := rfl

def Fence.Open (F : Fence) : Prop := F.tokens = []

/-- The tokens `xs` are ahead of the fence, and begin no declaration if there is one. -/
structure Fence.Ahead (F : Fence) (xs : List Token) (s : State) : Prop where
  after : s.after = xs ++ F.tokens
  size : ∀ x ∈ xs, x.span.start + Text.byteSize x.lexeme.spelling.toList ≤ F.bound
  area : F.Open → s.area.stop ≤ F.bound
  plain : ¬F.Open → ∀ x ∈ xs, x.lexeme.opensDeclaration = false
  closed : ¬F.Open → openers (xs.reverse ++ s.before) = []
  nested : ¬F.Open → s.Nested

/-- The state is in front of the fence, or right at it. -/
def Fence.Holds (F : Fence) (s : State) : Prop := ∃ xs, F.Ahead xs s

/-- No declaration begins at the state, unless everything may be read. -/
def Fence.Heads (F : Fence) (s : State) : Prop :=
  ∀ l ∈ s.current?, l.opensDeclaration = true → F.Open

namespace Fence

variable {F : Fence} {s t : State}

theorem current?_of_after {next : Token} {ts : List Token} (h : s.after = next :: ts) :
    s.current? = some next.lexeme := by
  simp [State.current?, State.peek?, h]

theorem currentSpan_of_after {next : Token} {ts : List Token} (h : s.after = next :: ts) :
    s.currentSpan = next.span := by
  simp [State.currentSpan, h]

private theorem Ahead.keyword (h : F.Ahead [] s) (hopen : ¬F.Open) :
    ∃ t ts, s.after = t :: ts ∧ F.tokens = t :: ts ∧ t.lexeme.opensDeclaration = true ∧
    t.span.start ≤ F.bound := by
  obtain ⟨t, ts, htokens⟩ := List.exists_cons_of_ne_nil hopen
  obtain ⟨hdecl, hstart⟩ := F.keyword t (by rw [htokens, List.head?_cons]; rfl)
  exact ⟨t, ts, by rw [h.after, List.nil_append, htokens], htokens, hdecl, hstart⟩

private theorem Ahead.cons_of_heads {xs : List Token} (h : F.Ahead xs s) (hopen : ¬F.Open)
    (hs : F.Heads s) : xs ≠ [] := by
  rintro rfl
  obtain ⟨t, ts, hafter, _, hdecl, _⟩ := h.keyword hopen
  exact hopen (hs t.lexeme (current?_of_after hafter) hdecl)

theorem Holds.advance (h : F.Holds s) (hs : F.Heads s) : F.Holds s.advance := by
  obtain ⟨xs, h⟩ := h
  cases hafter : s.after with
  | nil => exact ⟨xs, by rwa [State.advance, hafter]⟩
  | cons t ts =>
    have hadvance : s.advance = { s with before := t :: s.before, after := ts } := by
      rw [State.advance, hafter]
    cases xs with
    | nil =>
      have hopen : F.Open := Classical.byContradiction fun hopen => h.cons_of_heads hopen hs rfl
      have htokens := h.after
      rw [hafter, hopen] at htokens
      cases htokens
    | cons x xs =>
      obtain ⟨rfl, rfl⟩ := List.cons.inj (hafter.symm.trans h.after)
      refine ⟨xs, ?_, (List.forall_mem_cons.1 h.size).2, ?_, ?_, ?_, fun hopen =>
        (h.nested hopen).advance⟩
      · rw [hadvance]
        rfl
      · rw [hadvance]
        exact h.area
      · exact fun hopen => (List.forall_mem_cons.1 (h.plain hopen)).2
      · intro hopen
        have hclosed := h.closed hopen
        rw [hadvance]
        rwa [List.reverse_cons, List.append_assoc, List.singleton_append] at hclosed

theorem Holds.heads_of_above (h : F.Holds s) {k : Nat × Delimiter} {ks : List (Nat × Delimiter)}
    (ha : k :: ks <:+ openers s.before) : F.Heads s := by
  intro l hl hdecl
  by_cases hopen : F.Open
  · exact hopen
  obtain ⟨xs, h⟩ := h
  cases xs with
  | nil =>
    have hclosed : openers s.before = [] := h.closed hopen
    rw [hclosed] at ha
    exact absurd (List.suffix_nil.1 ha) (List.cons_ne_nil _ _)
  | cons x xs =>
    rw [current?_of_after h.after, Option.mem_some_iff] at hl
    have hplain := h.plain hopen x List.mem_cons_self
    rw [hl, hdecl] at hplain
    cases hplain

theorem Holds.nested (h : F.Holds s) (hopen : ¬F.Open) : s.Nested := by
  obtain ⟨xs, h⟩ := h
  exact h.nested hopen

theorem Holds.report (h : F.Holds s) (ds : List Diagnostic) : F.Holds (s.report ds) := by
  obtain ⟨xs, h⟩ := h
  exact ⟨xs, h.after, h.size, h.area, h.plain, h.closed, h.nested⟩

theorem Holds.start_le (h : F.Holds s) : s.currentSpan.start ≤ F.bound := by
  obtain ⟨xs, h⟩ := h
  cases xs with
  | cons x xs =>
    rw [currentSpan_of_after h.after]
    exact Nat.le_trans (Nat.le_add_right _ _) (h.size x List.mem_cons_self)
  | nil =>
    by_cases hopen : F.Open
    · have hafter : s.after = [] := by rw [h.after, hopen, List.append_nil]
      simpa [State.currentSpan, hafter, Span.point] using h.area hopen
    · obtain ⟨t, ts, hafter, _, _, hstart⟩ := h.keyword hopen
      rwa [currentSpan_of_after hafter]

theorem Holds.size_le (h : F.Holds s) {next : Token} {ts : List Token} (hs : s.after = next :: ts)
    (hnext : next.lexeme.opensDeclaration = false) :
    next.span.start + Text.byteSize next.lexeme.spelling.toList ≤ F.bound := by
  obtain ⟨xs, h⟩ := h
  cases xs with
  | cons x xs =>
    obtain ⟨rfl, _⟩ := List.cons.inj (hs.symm.trans h.after)
    exact h.size _ List.mem_cons_self
  | nil =>
    have hopen : ¬F.Open := by
      intro hopen
      have hafter := h.after
      rw [hs, hopen] at hafter
      cases hafter
    obtain ⟨t, us, hafter, _, hdecl, _⟩ := h.keyword hopen
    obtain ⟨rfl, _⟩ := List.cons.inj (hs.symm.trans hafter)
    rw [hnext] at hdecl
    cases hdecl

private theorem openBrackets_le {opened : Nat} {before : List Token}
    (h : opened ≤ (openers before).length) (t : Token) :
    openBrackets opened t.lexeme ≤ (openers (t :: before)).length := by
  cases ho : t.lexeme.opens? with
  | some d =>
    rw [openers_opens ho, openBrackets_opens ho]
    exact Nat.succ_le_succ h
  | none =>
    cases hc : t.lexeme.closes? with
    | none => rwa [openers_plain ho hc, openBrackets_plain ho hc]
    | some d =>
      rw [openers_closes hc, openBrackets_closes hc, List.length_tail]
      omega

private theorem skip_fenced (hopen : ¬F.Open) {surroundings : Surroundings} {must : Bool}
    {opened : Nat} {before xs : List Token} (hmust : must = true → xs ≠ [])
    (hclosed : openers (xs.reverse ++ before) = []) (hopened : opened ≤ (openers before).length) :
    ∃ ys zs, xs = ys ++ zs ∧
      skip surroundings must opened before (xs ++ F.tokens) =
        (ys.reverse ++ before, zs ++ F.tokens) := by
  induction xs generalizing must opened before with
  | nil =>
    obtain ⟨t, ts, htokens⟩ := List.exists_cons_of_ne_nil hopen
    have hzero : opened = 0 := by
      rw [List.reverse_nil, List.nil_append] at hclosed
      simpa [hclosed] using hopened
    have hdecl := (F.keyword t (by rw [htokens, List.head?_cons]; rfl)).1
    have hstep := F.declares
    rw [htokens] at hstep
    have hresumes : surroundings.resumesAt (t :: ts) = true := by
      simp [Surroundings.resumesAt, hdecl, hstep]
    have hmust : must = false := by simpa using hmust
    exact ⟨[], [], rfl, by simp [skip, htokens, hzero, hmust, hresumes]⟩
  | cons x xs ih =>
    rw [List.cons_append, skip]
    split
    · exact ⟨[], x :: xs, rfl, rfl⟩
    · have hclosed' : openers (xs.reverse ++ x :: before) = [] := by
        rwa [List.reverse_cons, List.append_assoc, List.singleton_append] at hclosed
      obtain ⟨ys, zs, rfl, hskip⟩ :=
        @ih false _ (x :: before) (absurd · Bool.false_ne_true) hclosed' (openBrackets_le hopened x)
      exact ⟨x :: ys, zs,
        rfl, by rw [hskip, List.reverse_cons, List.append_assoc, List.singleton_append]⟩

/-- Recovery from the failure of a statement does not pass the fence. -/
theorem Holds.recover {start : State} (hstart : F.Holds start) (hs : F.Heads start)
    (hreach : Reaches start s) (h : F.Holds s) (surroundings : Surroundings) :
    F.Holds (s.recover surroundings start.before.length) := by
  obtain ⟨xs, h⟩ := h
  have hskip : ∃ ys zs, xs = ys ++ zs ∧
      skip surroundings (s.before.length == start.before.length) 0 s.before s.after =
        (ys.reverse ++ s.before, zs ++ F.tokens) := by
    by_cases hopen : F.Open
    · obtain ⟨ts, hafter, hbefore⟩ :=
        skip_moves surroundings (s.before.length == start.before.length) 0 s.before s.after
      have hxs : s.after = xs := by rw [h.after, hopen, List.append_nil]
      exact ⟨ts, _, hxs ▸ hafter, by rw [hopen, List.append_nil, ← hbefore, ← hxs]⟩
    · rw [h.after]
      refine skip_fenced hopen (fun hmust => ?_) (h.closed hopen) (Nat.zero_le _)
      -- Nothing was read since the start of the statement, so that its first token is still ahead.
      obtain ⟨xs₀, hstart⟩ := hstart
      obtain ⟨ts, hm⟩ := hreach
      have hts : ts = [] := by
        have hlength := congrArg List.length hm.before
        simp only [List.length_append, List.length_reverse] at hlength
        rw [beq_iff_eq] at hmust
        exact List.eq_nil_of_length_eq_zero (by omega)
      have hafter := hm.after
      rw [hts, List.nil_append, hstart.after, h.after] at hafter
      exact List.append_cancel_right hafter ▸ hstart.cons_of_heads hopen hs
  obtain ⟨ys, zs, rfl, hskip⟩ := hskip
  have hrecover : s.recover surroundings start.before.length =
      { s with before := ys.reverse ++ s.before, after := zs ++ F.tokens } := by
    simp only [State.recover, hskip]
  refine ⟨zs, ?_, (List.forall_mem_append.1 h.size).2, ?_, ?_, ?_, ?_⟩
  · rw [hrecover]
  · rw [hrecover]
    exact h.area
  · exact fun hopen => (List.forall_mem_append.1 (h.plain hopen)).2
  · intro hopen
    have hclosed := h.closed hopen
    rw [hrecover]
    rwa [List.reverse_append, List.append_assoc] at hclosed
  · exact fun hopen => (h.nested hopen).reaches (.recover _ _ _)

end Fence

end ApiScript.Grammar
