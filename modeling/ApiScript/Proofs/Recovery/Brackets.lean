import ApiScript.Proofs.Spelling.Program

set_option autoImplicit false
set_option relaxedAutoImplicit false

/-!
The brackets that are open in front of a token, and what recovery from a failed statement does to
them. It counts the brackets opened since the failure and knows nothing of those opened before it.
-/

namespace ApiScript

def Lexeme.opens? : Lexeme → Option Delimiter
  | .symbol .leftParen => some .parenthesis
  | .symbol .leftBracket => some .bracket
  | .symbol .leftBrace => some .brace
  | _ => none

def Lexeme.closes? : Lexeme → Option Delimiter
  | .symbol .rightParen => some .parenthesis
  | .symbol .rightBracket => some .bracket
  | .symbol .rightBrace => some .brace
  | _ => none

private theorem Lexeme.closes?_brace {l : Lexeme} :
    l.closes? = some .brace ↔ l = .symbol .rightBrace := by
  constructor
  · intro h
    unfold Lexeme.closes? at h
    split at h <;> simp_all
  · rintro rfl
    rfl

namespace Grammar

/-- The brackets still open behind tokens, of which the last comes first: the number of tokens in
front of each and its kind, innermost first. -/
def openers : List Token → List (Nat × Delimiter)
  | [] => []
  | t :: before =>
    match t.lexeme.opens?, t.lexeme.closes? with
    | some d, _ => (before.length, d) :: openers before
    | none, some _ => (openers before).tail
    | none, none => openers before

/-- Each closer among the tokens, of which the last comes first, closes the bracket opened last. -/
def Nests : List Token → Prop
  | [] => True
  | t :: before =>
    (∀ d ∈ t.lexeme.closes?, (openers before).head?.map (·.2) = some d) ∧ Nests before

instance Nests.decide : (before : List Token) → Decidable (Nests before)
  | [] => isTrue trivial
  | _ :: before => @instDecidableAnd _ _ inferInstance (Nests.decide before)

def State.Nested (s : State) : Prop := Nests s.tokens.reverse

theorem openers_opens {t : Token} {before : List Token} {d : Delimiter}
    (h : t.lexeme.opens? = some d) :
    openers (t :: before) = (before.length, d) :: openers before := by
  simp only [openers, h]

theorem Lexeme.closes?_of_opens {l : Lexeme} {d : Delimiter} (h : l.opens? = some d) :
    l.closes? = none := by
  unfold Lexeme.opens? at h
  split at h <;> first | rfl | cases h

theorem openers_closes {t : Token} {before : List Token} {d : Delimiter}
    (h : t.lexeme.closes? = some d) :
    openers (t :: before) = (openers before).tail := by
  cases ho : t.lexeme.opens? with
  | none => simp only [openers, ho, h]
  | some d' =>
    rw [Lexeme.closes?_of_opens ho] at h
    cases h

theorem openers_plain {t : Token} {before : List Token} (h : t.lexeme.opens? = none)
    (k : t.lexeme.closes? = none) : openers (t :: before) = openers before := by
  simp only [openers, h, k]

theorem openers_ordered (before : List Token) :
    (openers before).Pairwise (fun a b => b.1 < a.1) ∧ ∀ a ∈ openers before,
    a.1 < before.length := by
  induction before with
  | nil => exact ⟨.nil, nofun⟩
  | cons t before ih =>
    obtain ⟨hordered, hbound⟩ := ih
    have hbound' : ∀ a ∈ openers before, a.1 < (t :: before).length := fun a ha =>
      Nat.lt_succ_of_lt (hbound a ha)
    simp only [openers]
    split
    · refine ⟨List.pairwise_cons.2 ⟨hbound, hordered⟩, fun a ha => ?_⟩
      rcases List.mem_cons.1 ha with rfl | ha
      · exact Nat.lt_succ_self _
      · exact hbound' a ha
    · exact ⟨hordered.tail, fun a ha => hbound' a (List.mem_of_mem_tail ha)⟩
    · exact ⟨hordered, hbound'⟩

private theorem Nests.innermost {t : Token} {before : List Token} {d : Delimiter}
    (h : Nests (t :: before)) (hc : t.lexeme.closes? = some d) :
    ∃ n rest, openers before = (n, d) :: rest := by
  obtain ⟨⟨n, d⟩, hhead, rfl⟩ := Option.map_eq_some_iff.1 (h.1 d hc)
  obtain ⟨rest, hrest⟩ := List.head?_eq_some_iff.1 hhead
  exact ⟨n, rest, hrest⟩

private theorem Nests.behind {ts before : List Token} (h : Nests (ts ++ before)) :
    Nests before := by
  induction ts with
  | nil => exact h
  | cons t ts ih => exact ih h.2

theorem State.Nested.reaches {s t : State} (hs : s.Nested) (h : Reaches s t) : t.Nested := by
  obtain ⟨ts, h⟩ := h
  rwa [State.Nested, tokens_of_moves h]

theorem State.Nested.advance {s : State} (hs : s.Nested) : s.advance.Nested :=
  hs.reaches (.advance s)

theorem State.nested_iff {s : State} : s.Nested ↔ Nests (s.after.reverse ++ s.before) := by
  simp only [State.Nested, State.tokens, List.reverse_append, List.reverse_reverse]

section Skip

variable {surroundings : Surroundings}

theorem openBrackets_opens {l : Lexeme} {d : Delimiter} (h : l.opens? = some d) (opened : Nat) :
    openBrackets opened l = opened + 1 := by
  unfold Lexeme.opens? at h
  split at h <;> first | rfl | cases h

theorem openBrackets_closes {l : Lexeme} {d : Delimiter} (h : l.closes? = some d) (opened : Nat) :
    openBrackets opened l = opened - 1 := by
  unfold Lexeme.closes? at h
  split at h <;> first | rfl | cases h

theorem openBrackets_plain {l : Lexeme} (h : l.opens? = none) (k : l.closes? = none)
    (opened : Nat) :
    openBrackets opened l = opened := by
  unfold openBrackets
  split <;> first | rfl | simp [Lexeme.opens?, Lexeme.closes?] at h k

private theorem drop_openers (t : Token) (before : List Token) (opened : Nat) :
    (openers (t :: before)).drop (openBrackets opened t.lexeme) = (openers before).drop opened ∨
      opened = 0 ∧ ∃ d, t.lexeme.closes? = some d := by
  cases ho : t.lexeme.opens? with
  | some d =>
    left
    rw [openers_opens ho, openBrackets_opens ho, List.drop_succ_cons]
  | none =>
    cases hc : t.lexeme.closes? with
    | none =>
      left
      rw [openers_plain ho hc, openBrackets_plain ho hc]
    | some d =>
      cases opened with
      | zero => exact .inr ⟨rfl, d, rfl⟩
      | succ opened =>
        left
        rw [openers_closes hc, openBrackets_closes hc, Nat.add_sub_cancel, List.drop_tail]

private theorem resumesAt_closes {t : Token} {ts : List Token} {d : Delimiter}
    (hb : surroundings ≠ .script) (hc : t.lexeme.closes? = some d)
    (h : ¬surroundings.resumesAt (t :: ts)) : d ≠ .brace := by
  rintro rfl
  refine h ?_
  simp [Surroundings.resumesAt, Lexeme.closes?_brace.1 hc, hb]

private theorem openers_skipped {must : Bool} {t : Token} (ts : List Token) {before : List Token}
    {d : Delimiter} (hb : surroundings ≠ .script) (hn : Nests (t :: before))
    (hmust : must = true → t.lexeme ≠ .symbol .rightBrace) (hc : t.lexeme.closes? = some d)
    (h : ¬(must = false ∧ surroundings.resumesAt (t :: ts))) :
    ∃ n rest, openers before = (n, d) :: rest ∧ openers (t :: before) = rest ∧ d ≠ .brace := by
  obtain ⟨n, rest, hrest⟩ := hn.innermost hc
  refine ⟨n, rest, hrest, by rw [openers_closes hc, hrest, List.tail_cons], ?_⟩
  cases must with
  | true => exact fun hd => hmust rfl (Lexeme.closes?_brace.1 (hd ▸ hc))
  | false => exact resumesAt_closes hb hc fun hr => h ⟨rfl, hr⟩

/-- A brace that was open when the statement failed stays open, with all that is outside of it. -/
theorem skip_keeps {ks : List (Nat × Delimiter)} {n : Nat} (hb : surroundings ≠ .script)
    {must : Bool} {opened : Nat} {before after : List Token} (hn : Nests (after.reverse ++ before))
    (hmust : must = true → opened = 0 → ∀ t ∈ after.head?, t.lexeme ≠ .symbol .rightBrace)
    (h : (n, .brace) :: ks <:+ (openers before).drop opened) :
    (n, .brace) :: ks <:+ openers (skip surroundings must opened before after).1 := by
  induction after generalizing must opened before with
  | nil => exact h.trans (List.drop_suffix _ _)
  | cons t ts ih =>
    rw [List.reverse_cons, List.append_assoc, List.singleton_append] at hn
    unfold skip
    split
    · exact h.trans (List.drop_suffix _ _)
    · rename_i hgo
      refine ih hn (by simp) ?_
      rcases drop_openers t before opened with hsame | ⟨rfl, d, hc⟩
      · rwa [hsame]
      · obtain ⟨m, rest, hbefore, hbehind, hd⟩ := openers_skipped ts hb hn.behind
          (fun hm => hmust hm rfl t rfl) hc (fun hr => hgo ⟨rfl, hr⟩)
        rw [List.drop_zero, hbefore] at h
        rw [openBrackets_closes hc, List.drop_zero, hbehind]
        rcases List.suffix_cons_iff.1 h with heq | h
        · cases heq
          exact absurd rfl hd
        · exact h

/-- Skipping that stops at a closing brace has come to the innermost brace that was open at the
failure. -/
theorem skip_stops (hb : surroundings ≠ .script) {must : Bool} {opened : Nat}
    {before after : List Token} (hn : Nests (after.reverse ++ before))
    (hmust : must = true → opened = 0 → ∀ t ∈ after.head?, t.lexeme ≠ .symbol .rightBrace)
    (hstop : ∃ t ∈ (skip surroundings must opened before after).2.head?,
    t.lexeme = .symbol .rightBrace) :
    openers (skip surroundings must opened before after).1 =
      ((openers before).drop opened).dropWhile (·.2 != .brace) := by
  induction after generalizing must opened before with
  | nil =>
    obtain ⟨t, ht, _⟩ := hstop
    cases ht
  | cons t ts ih =>
    rw [List.reverse_cons, List.append_assoc, List.singleton_append] at hn
    unfold skip at hstop ⊢
    split
    · rename_i hhere
      rw [if_pos hhere] at hstop
      obtain ⟨_, hhead, ht⟩ := hstop
      cases hhead
      obtain ⟨n, rest, hrest⟩ := hn.behind.innermost (Lexeme.closes?_brace.2 ht)
      simp [hhere.1, hrest]
    · rename_i hgo
      rw [if_neg hgo] at hstop
      rw [ih hn (by simp) hstop]
      rcases drop_openers t before opened with hsame | ⟨rfl, d, hc⟩
      · rw [hsame]
      · obtain ⟨m, rest, hbefore, hbehind, hd⟩ := openers_skipped ts hb hn.behind
          (fun hm => hmust hm rfl t rfl) hc (fun hr => hgo ⟨rfl, hr⟩)
        rw [openBrackets_closes hc, List.drop_zero, List.drop_zero, hbehind, hbefore,
          List.dropWhile_cons_of_pos (by simpa using hd)]

end Skip

end Grammar

end ApiScript
