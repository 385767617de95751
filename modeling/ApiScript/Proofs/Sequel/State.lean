import ApiScript.Proofs.Spelling.Expression

set_option autoImplicit false
set_option relaxedAutoImplicit false

/-!
States with more behind them. What the grammar asks of the next tokens has the same answer where the
text ends as where a declaration follows, since no construct goes on with a keyword that begins a
declaration.
-/

namespace ApiScript.Grammar

/-- What stands behind a text: tokens, of which the first begins a declaration, and what is reported
of them in front of all else. -/
structure Sequel where
  tokens : List Token
  log : List Diagnostic
  keyword : ∀ t ∈ tokens.head?, t.lexeme.opensDeclaration = true

abbrev Sequel.nothing : Sequel := ⟨[], [], nofun⟩

/-- The second state is the first one with the sequel behind it. -/
structure Sequel.Extends (K : Sequel) (s t : State) : Prop where
  after : t.after = s.after ++ K.tokens
  before : t.before = s.before
  start : t.area.start = s.area.start
  log : t.log = K.log ++ s.log

def Sequel.extend (K : Sequel) (s : State) : State :=
  { s with after := s.after ++ K.tokens, log := K.log ++ s.log }

theorem Sequel.extends_extend (K : Sequel) (s : State) : K.Extends s (K.extend s) :=
  ⟨rfl, rfl, rfl, rfl⟩

theorem Sequel.Extends.refl (s : State) : Sequel.nothing.Extends s s :=
  ⟨(List.append_nil _).symm, rfl, rfl, rfl⟩

theorem exists_keyword_of_opensDeclaration {l : Lexeme} (h : l.opensDeclaration = true) :
    ∃ k : Keyword, l = .keyword k ∧ k.opensDeclaration = true := by
  cases l with
  | keyword k => exact ⟨k, rfl, h⟩
  | _ => cases h

theorem State.current?_of_nil {s : State} (h : s.after = []) : s.current? = none := by
  simp [State.current?, State.peek?, h]

theorem State.ne_nil_of_current? {s : State} {l : Lexeme} (h : s.current? = some l) :
    s.after ≠ [] := by
  intro hnil
  rw [State.current?_of_nil hnil] at h
  cases h

theorem State.ne_nil_of_sees {s : State} {l : Lexeme} (h : s.sees l = true) : s.after ≠ [] :=
  State.ne_nil_of_current? (State.current?_of_sees h)

theorem State.ne_nil_of_atRangeMark {s : State} (h : s.atRangeMark = true) : s.after ≠ [] := by
  obtain ⟨l, hl⟩ := State.current?_of_atRangeMark h
  exact State.ne_nil_of_current? hl

theorem State.length_of_peek? {s : State} {n : Nat} {l : Lexeme} (h : s.peek? n = some l) :
    n + 1 ≤ s.after.length := by
  rw [State.peek?, Option.map_eq_some_iff] at h
  obtain ⟨x, hx, -⟩ := h
  exact (List.getElem?_eq_some_iff.1 hx).1

namespace Sequel.Extends

variable {K : Sequel} {s t : State} {l : Lexeme} {n : Nat}

theorem nothing_iff : Sequel.nothing.Extends s t ↔ t.after = s.after ∧ t.before = s.before ∧
    t.area.start = s.area.start ∧
    t.log = s.log := by
  constructor
  · rintro ⟨hafter, hbefore, hstart, hlog⟩
    exact ⟨by simpa using hafter, hbefore, hstart, hlog⟩
  · rintro ⟨hafter, hbefore, hstart, hlog⟩
    exact ⟨by simpa using hafter, hbefore, hstart, hlog⟩

private theorem peek?_of_lt (h : K.Extends s t) (hn : n < s.after.length) :
    t.peek? n = s.peek? n := by
  rw [State.peek?, State.peek?, h.after, List.getElem?_append_left hn]

theorem current?_of_ne_nil (h : K.Extends s t) (hs : s.after ≠ []) : t.current? = s.current? :=
  h.peek?_of_lt (List.length_pos_iff.2 hs)

theorem current? (h : K.Extends s t) (hs : s.current? = some l) : t.current? = some l := by
  rw [h.current?_of_ne_nil (State.ne_nil_of_current? hs), hs]

private theorem peek?_length (h : K.Extends s t) (hl : t.peek? s.after.length = some l) :
    l.opensDeclaration = true := by
  rw [State.peek?, h.after, List.getElem?_append_right (Nat.le_refl _), Nat.sub_self,
    ← List.head?_eq_getElem?, Option.map_eq_some_iff] at hl
  obtain ⟨x, hx, rfl⟩ := hl
  exact K.keyword x hx

theorem not_atEnd (h : K.Extends s t) (hs : ¬s.atEnd) : ¬t.atEnd := by
  rw [State.atEnd, List.isEmpty_iff] at hs ⊢
  rw [h.after]
  exact List.append_ne_nil_of_left_ne_nil hs _

theorem currentSpan (h : K.Extends s t) (hs : s.after ≠ []) : t.currentSpan = s.currentSpan := by
  obtain ⟨x, ts, hafter⟩ := List.exists_cons_of_ne_nil hs
  rw [State.currentSpan, State.currentSpan, h.after, hafter, List.cons_append]

theorem previousSpan (h : K.Extends s t) : t.previousSpan = s.previousSpan := by
  rw [State.previousSpan, State.previousSpan, h.before, h.start]

theorem advance (h : K.Extends s t) (hs : s.after ≠ []) : K.Extends s.advance t.advance := by
  obtain ⟨x, ts, hafter⟩ := List.exists_cons_of_ne_nil hs
  have ht : t.after = x :: (ts ++ K.tokens) := by rw [h.after, hafter, List.cons_append]
  simp only [State.advance, hafter, ht]
  exact ⟨rfl, by rw [h.before], h.start, h.log⟩

theorem report (h : K.Extends s t) (ds : List Diagnostic) : K.Extends (s.report ds) (t.report ds) :=
  ⟨h.after, h.before, h.start, by simp only [State.report, h.log, List.append_assoc]⟩

private theorem peek?_cases (h : K.Extends s t) (hn : n ≤ s.after.length) :
    t.peek? n = s.peek? n ∨
      s.peek? n = none ∧ ∃ k : Keyword, t.peek? n = some (.keyword k) ∧
        k.opensDeclaration = true := by
  rcases Nat.lt_or_eq_of_le hn with hlt | rfl
  · exact .inl (h.peek?_of_lt hlt)
  · have hnone : s.peek? s.after.length = none := by simp [State.peek?]
    cases ht : t.peek? s.after.length with
    | none => exact .inl hnone.symm
    | some l =>
      obtain ⟨k, rfl, hk⟩ := exists_keyword_of_opensDeclaration (h.peek?_length ht)
      exact .inr ⟨hnone, k, rfl, hk⟩

private theorem current?_cases (h : K.Extends s t) : t.current? = s.current? ∨
    s.current? = none ∧ ∃ k : Keyword, t.current? = some (.keyword k) ∧ k.opensDeclaration = true :=
  h.peek?_cases (Nat.zero_le _)

theorem peek?_iff (h : K.Extends s t) (hn : n ≤ s.after.length) (hl : l.opensDeclaration = false) :
    t.peek? n = some l ↔ s.peek? n = some l := by
  rcases h.peek?_cases hn with heq | ⟨hs, k, ht, hk⟩
  · rw [heq]
  · rw [hs, ht, Option.some.injEq]
    refine iff_of_false ?_ (Option.some_ne_none l).symm
    rintro rfl
    exact Bool.false_ne_true (hl.symm.trans hk)

private theorem peek?_beq (h : K.Extends s t) (hn : n ≤ s.after.length)
    (hl : l.opensDeclaration = false) :
    (t.peek? n == some l) = (s.peek? n == some l) := by
  rw [Bool.eq_iff_iff, beq_iff_eq, beq_iff_eq, h.peek?_iff hn hl]

theorem sees (h : K.Extends s t) (hl : l.opensDeclaration = false) : t.sees l = s.sees l :=
  h.peek?_beq (Nat.zero_le _) hl

theorem sees_of_sees (h : K.Extends s t) (hs : s.sees l = true) : t.sees l = true := by
  rw [State.sees, beq_iff_eq] at hs ⊢
  exact h.current? hs

theorem atIdentifier (h : K.Extends s t) : t.atIdentifier = s.atIdentifier := by
  unfold State.atIdentifier
  rcases h.current?_cases with heq | ⟨hs, k, ht, -⟩
  · simp only [heq]
  · simp only [hs, ht]

theorem atString (h : K.Extends s t) : t.atString = s.atString := by
  unfold State.atString
  rcases h.current?_cases with heq | ⟨hs, k, ht, -⟩
  · simp only [heq]
  · simp only [hs, ht]

theorem atRangeMark (h : K.Extends s t) : t.atRangeMark = s.atRangeMark := by
  rw [State.atRangeMark, State.atRangeMark, h.sees rfl, h.sees rfl]

theorem atExpressionStart (h : K.Extends s t) : t.atExpressionStart = s.atExpressionStart := by
  unfold State.atExpressionStart
  rcases h.current?_cases with heq | ⟨hs, k, ht, hk⟩
  · rw [heq]
  · rw [hs, ht]
    cases k <;> first | rfl | cases hk

theorem atNegativeNumber (h : K.Extends s t) : t.atNegativeNumber = s.atNegativeNumber := by
  have hkeyword {x : Token} {ts : List Token} (hK : K.tokens = x :: ts) :
      x.lexeme.opensDeclaration = true :=
    K.keyword x (by rw [hK]; rfl)
  rw [Bool.eq_iff_iff, State.atNegativeNumber_iff, State.atNegativeNumber_iff]
  constructor
  · rintro ⟨minus, number, rest, hafter, hminus, hnumber, htouch⟩
    rw [h.after] at hafter
    match hs : s.after with
    | [] =>
      rw [hs, List.nil_append] at hafter
      have hdecl := hkeyword hafter
      rw [hminus] at hdecl
      cases hdecl
    | [x] =>
      rw [hs, List.singleton_append, List.cons.injEq] at hafter
      obtain ⟨k, hk, -⟩ := exists_keyword_of_opensDeclaration (hkeyword hafter.2)
      rw [hk] at hnumber
      cases hnumber
    | x :: y :: ts =>
      rw [hs, List.cons_append, List.cons_append, List.cons.injEq, List.cons.injEq] at hafter
      obtain ⟨rfl, rfl, -⟩ := hafter
      exact ⟨x, y, ts, rfl, hminus, hnumber, htouch⟩
  · rintro ⟨minus, number, rest, hafter, hnumber⟩
    exact ⟨minus, number, rest ++ K.tokens, by
      rw [h.after, hafter, List.cons_append, List.cons_append], hnumber⟩

theorem atLiteral (h : K.Extends s t) : t.atLiteral = s.atLiteral := by
  have hcurrent : t.current?.any (·.isLiteral) = s.current?.any (·.isLiteral) := by
    rcases h.current?_cases with heq | ⟨hs, k, ht, hk⟩
    · rw [heq]
    · rw [hs, ht]
      cases k <;> first | rfl | cases hk
  rw [State.atLiteral, State.atLiteral, hcurrent, h.atNegativeNumber]

theorem atInteger (h : K.Extends s t) : t.atInteger = s.atInteger := by
  unfold State.atInteger
  rw [h.atNegativeNumber]
  rcases h.current?_cases with heq | ⟨hs, k, ht, -⟩
  · rw [heq]
    by_cases hnil : s.after = []
    · simp only [State.current?_of_nil hnil]
    · rcases h.peek?_cases (List.length_pos_iff.2 hnil) with hnext | ⟨hs, k, ht, -⟩
      · rw [hnext]
      · rw [hs, ht]
        split <;> simp_all
  · simp only [hs, ht]

theorem atObjectStart (h : K.Extends s t) : t.atObjectStart = s.atObjectStart := by
  unfold State.atObjectStart
  rw [h.sees rfl]
  cases hbrace : s.sees (.symbol .leftBrace) with
  | false => rfl
  | true =>
    rcases h.peek?_cases
      (State.length_of_peek? (State.current?_of_sees hbrace)) with heq | ⟨hs, k, ht, -⟩
    · rw [heq]
      cases hs : s.peek? 1 with
      | none => rfl
      | some l => rw [h.peek?_beq (State.length_of_peek? hs) rfl]
    · rw [hs, ht]
      rfl

theorem atOptionalObject (h : K.Extends s t) : t.atOptionalObject = s.atOptionalObject := by
  rw [State.atOptionalObject, State.atOptionalObject, h.atObjectStart, h.sees rfl]
  cases hbrace : s.sees (.symbol .leftBrace) with
  | false => rfl
  | true => rw [h.peek?_beq (State.length_of_peek? (State.current?_of_sees hbrace)) rfl]

theorem opens_of_nil (h : K.Extends s t) (hs : s.after = []) (ht : t.current? = some l) :
    l.opensDeclaration = true := by
  refine h.peek?_length ?_
  rw [hs]
  exact ht

theorem atStepStart (h : K.Extends s t) (hs : s.after ≠ []) : t.atStepStart = s.atStepStart := by
  match hafter : s.after with
  | [] => exact absurd hafter hs
  | x :: y :: ts =>
    simp only [State.atStepStart, h.after, hafter, List.cons_append, State.startsStep]
  | [x] =>
    rw [State.atStepStart, State.atStepStart, h.after, hafter, List.singleton_append]
    match hK : K.tokens with
    | [] => rfl
    | k :: ks =>
      obtain ⟨keyword, hkeyword, -⟩ :=
        exists_keyword_of_opensDeclaration (K.keyword k (by rw [hK]; rfl))
      rw [State.startsStep, hkeyword]
      exact Bool.and_false _

theorem atPathStart (h : K.Extends s t) (hs : s.sees (.keyword .path) = true → 3 ≤ s.after.length) :
    t.atPathStart = s.atPathStart := by
  rw [State.atPathStart, State.atPathStart, h.sees rfl]
  cases hpath : s.sees (.keyword .path) with
  | false => rfl
  | true =>
    have hlength := hs hpath
    rw [h.peek?_of_lt (n := 1) (by omega), h.peek?_beq hlength rfl]

theorem touches (h : K.Extends s t) (hl : l.opensDeclaration = false) (front : Span) :
    (t.sees l = true ∧ front.touches t.currentSpan = true) ↔
    (s.sees l = true ∧ front.touches s.currentSpan = true) := by
  rw [h.sees hl]
  refine and_congr_right fun hs => ?_
  rw [h.currentSpan (State.ne_nil_of_sees hs)]

theorem unaryOp? (h : K.Extends s t) : unaryOp? t = unaryOp? s := by
  unfold Grammar.unaryOp?
  rw [h.atNegativeNumber]
  rcases h.current?_cases with heq | ⟨hs, k, ht, -⟩
  · simp only [heq]
  · simp only [hs, ht]

end Sequel.Extends

end ApiScript.Grammar
