import ApiScript.Proofs.Reading.Loops

set_option autoImplicit false
set_option relaxedAutoImplicit false

/-!
Binary operators, read in one loop for each left operand, group as they do where each precedence has
a loop of its own. Behind a right operand no operator is left that binds more tightly than the one
in front of it, so that a loop which goes on there goes on with its own precedence.
-/

namespace ApiScript

private theorem BinaryOp.two_le_precedence (op : BinaryOp) : 2 ≤ op.precedence := by
  cases op <;> decide

def BinaryOp.precedences : List Nat := [2, 3, 4, 5, 6, 7]

namespace Grammar

variable {inner : Inner} {s t : State}

section Extend

variable {Op : Type} {operator? : Lexeme → Option Op} {right : Op → Parser Expr}
  {combine : Span → Op → Expr → Expr → Expr} {left e : Expr}

theorem extend?_none (h : Reads (extend? operator? right combine left) s none t) :
    t = s ∧ ∀ l, s.current? = some l → operator? l = none := by
  unfold extend? at h
  rw [reads_get_bind] at h
  split at h
  · rename_i hs
    exact ⟨(reads_pure.1 h).2, fun l hl => by rw [hs] at hl; cases hl⟩
  · rename_i l hl
    split at h
    · rename_i hop
      refine ⟨(reads_pure.1 h).2, fun l' hl' => ?_⟩
      rw [hl] at hl'
      exact Option.some.inj hl' ▸ hop
    · simp only [reads_bind, reads_pure, reduceCtorEq, false_and, and_false, exists_false] at h

theorem extend?_some (h : Reads (extend? operator? right combine left) s (some e) t) :
    ∃ l op e', s.current? = some l ∧ operator? l = some op ∧
      s.advance.atExpressionStart = true ∧ Reads (right op) s.advance e' t ∧
      e = combine (left.span.merge e'.span) op left e' := by
  unfold extend? at h
  rw [reads_get_bind] at h
  split at h
  · simp only [reads_pure, reduceCtorEq, false_and] at h
  · rename_i l hl
    split at h
    · simp only [reads_pure, reduceCtorEq, false_and] at h
    · rename_i op hop
      simp only [reads_bind, reads_advance, reads_operand, reads_pure, and_assoc, exists_and_left,
        exists_eq_left, exists_const, Option.some.injEq] at h
      obtain ⟨hstart, e', _, he', rfl, rfl⟩ := h
      exact ⟨l, op, e', hl, hop, hstart, he', rfl⟩

theorem extend?_productive [∀ op, Advances (right op)] :
    Productive (extend? operator? right combine) := by
  intro left e s t h
  obtain ⟨l, op, e', hl, _, _, he', _⟩ := extend?_some h
  exact Nat.lt_of_le_of_lt (Advances.reads he').length_le (State.advance_shorter hl)

private theorem get_bind {α : Type} (f : State → Parser α) :
    ((get : Parser State) >>= f) s = f s s :=
  rfl

private theorem extend?_eq (hs : ∀ l, s.current? = some l → operator? l = none) :
    extend? operator? right combine left s = .ok none s := by
  unfold extend?
  rw [get_bind]
  cases hl : s.current? with
  | none => rfl
  | some l =>
    simp only [hs l hl]
    rfl

private theorem extend?_congr {Op' : Type} {operator?' : Lexeme → Option Op'}
    {right' : Op' → Parser Expr} {combine' : Span → Op' → Expr → Expr → Expr}
    {l : Lexeme} {op : Op} {op' : Op'} (hl : s.current? = some l)
    (hop : operator? l = some op) (hop' : operator?' l = some op')
    (hright : right op = right' op') (hcombine : ∀ span, combine span op = combine' span op') :
    extend? operator? right combine left s = extend? operator?' right' combine' left s := by
  unfold extend?
  rw [get_bind, get_bind]
  simp only [hl, hop, hop', hright, hcombine]

end Extend

section Repeated

variable {α : Type} {step : α → Parser (Option α)} {a b : α} {d : Diagnostic}

private theorem repeatWithin_eq (hstep : Productive step) {bound bound' : Nat}
    (h : s.after.length < bound) (h' : s.after.length < bound') :
    repeatWithin step bound a s = repeatWithin step bound' a s := by
  induction bound generalizing bound' a s with
  | zero => exact absurd h (Nat.not_lt_zero _)
  | succ bound ih =>
    obtain ⟨bound', rfl⟩ := Nat.exists_eq_add_one_of_ne_zero (Nat.ne_zero_of_lt h')
    change EStateM.bind (step a) _ s = EStateM.bind (step a) _ s
    cases hs : step a s with
    | error d t => simp only [EStateM.bind, hs]
    | ok r t =>
      simp only [EStateM.bind, hs]
      cases r with
      | none => rfl
      | some b =>
        have hlt : t.after.length < s.after.length := hstep hs
        exact ih (by omega) (by omega)

private theorem repeated_of_none (h : Reads (step a) s none t) : repeated step a s = .ok a t := by
  change EStateM.bind (step a) _ s = _
  rw [EStateM.bind, h]
  rfl

private theorem repeated_of_some (hstep : Productive step) (h : Reads (step a) s (some b) t) :
    repeated step a s = repeated step b t := by
  have hlt : t.after.length < s.after.length := hstep h
  change EStateM.bind (step a) _ s = repeatWithin step (t.after.length + 1) b t
  rw [EStateM.bind, h]
  exact repeatWithin_eq hstep hlt (Nat.lt_succ_self _)

private theorem repeated_of_fails (h : Fails (step a) s d t) : repeated step a s = .error d t := by
  change EStateM.bind (step a) _ s = _
  rw [EStateM.bind, h]

private theorem repeated_extend?_of_forall {Op : Type} {operator? : Lexeme → Option Op}
    (right : Op → Parser Expr) (combine : Span → Op → Expr → Expr → Expr)
    (h : ∀ l, operator? l = none) : repeated (extend? operator? right combine) = pure :=
  funext fun _ => funext fun _ => repeated_of_none (extend?_eq fun l _ => h l)

end Repeated

section Operators

theorem operatorFrom_lexeme {minimum : Nat} {l : Lexeme}
    {op : {op : BinaryOp // minimum ≤ op.precedence}} (h : operatorFrom minimum l = some op) :
    op.1.lexeme = l := by
  obtain ⟨op', hop, hle⟩ := Option.bind_eq_some_iff.1 h
  split at hle <;> cases hle
  simpa using List.find?_some hop

theorem pipeOf_eq_some {l : Lexeme} {op : Unit} (h : pipeOf l = some op) : l = .symbol .pipe := by
  unfold pipeOf at h
  split at h
  · assumption
  · cases h

def operatorOf (precedence : Nat) (l : Lexeme) : Option BinaryOp :=
  (BinaryOp.ofLexeme? l).filter (·.precedence == precedence)

theorem operatorOf_lexeme {precedence : Nat} {l : Lexeme} {op : BinaryOp}
    (h : operatorOf precedence l = some op) : op.lexeme = l := by
  obtain ⟨h, _⟩ := Option.filter_eq_some_iff.1 h
  simpa using List.find?_some h

end Operators

def levels (k : Nat) : List Nat := List.range' k (8 - k)

variable (inner)

/-- Reads operators of the given precedences, loosest first, each in a loop of its own. -/
def binary : List Nat → Parser Expr
  | [] => unary inner
  | precedence :: tighter => do
    repeated (extend? (operatorOf precedence) (fun _ => binary tighter) .binary) (← binary tighter)

section Climb

variable [∀ e, Advances (inner e)]

instance (precedences : List Nat) : Advances (binary inner precedences) := by
  induction precedences with
  | nil => exact inferInstanceAs (Advances (unary inner))
  | cons precedence tighter ih =>
    unfold binary
    infer_instance

private abbrev round (minimum : Nat) : Expr → Parser (Option Expr) :=
  extend? (operatorFrom minimum) (fun op => climb inner (op.1.precedence + 1))
    fun span op => .binary span op.1

private abbrev levelRound (precedence : Nat) : Expr → Parser (Option Expr) :=
  extend? (operatorOf precedence) (fun _ => climb inner (precedence + 1)) .binary

variable {inner} {m : Nat} {left : Expr}

private theorem round_cases (inner : Inner) (m : Nat) (s : State) :
    (∀ left, round inner (m + 1) left s = .ok none s ∧
      round inner m left s = levelRound inner m left s) ∨
    ∀ left, round inner m left s = round inner (m + 1) left s ∧
      ∀ t, ¬Reads (round inner m left) s none t := by
  cases hop : s.current?.bind BinaryOp.ofLexeme? with
  | none =>
    have hnone {k : Nat} : ∀ l, s.current? = some l → operatorFrom k l = none := fun l hl => by
      rw [operatorFrom, Option.bind_eq_none_iff.1 hop l hl, Option.bind_none]
    have hlevel : ∀ l, s.current? = some l → operatorOf m l = none := fun l hl => by
      rw [operatorOf, Option.bind_eq_none_iff.1 hop l hl, Option.filter_none]
    exact .inl fun left => ⟨extend?_eq hnone, (extend?_eq hnone).trans (extend?_eq hlevel).symm⟩
  | some op =>
    obtain ⟨l, hl, hop⟩ := Option.bind_eq_some_iff.1 hop
    have hfrom {k : Nat} (hk : k ≤ op.precedence) : operatorFrom k l = some ⟨op, hk⟩ := by
      rw [operatorFrom, hop, Option.bind_some, dif_pos hk]
    have hnone {k : Nat} (hk : op.precedence < k) :
        ∀ l, s.current? = some l → operatorFrom k l = none := fun l' hl' => by
      cases hl.symm.trans hl'
      rw [operatorFrom, hop, Option.bind_some, dif_neg (Nat.not_le_of_lt hk)]
    rcases Nat.lt_trichotomy op.precedence m with hlt | rfl | hgt
    · have hlevel : ∀ l, s.current? = some l → operatorOf m l = none := fun l' hl' => by
        cases hl.symm.trans hl'
        rw [operatorOf, hop, Option.filter_some, if_neg (by simpa using Nat.ne_of_lt hlt)]
      exact .inl fun left => ⟨extend?_eq (hnone (Nat.lt_succ_of_lt hlt)),
        (extend?_eq (hnone hlt)).trans (extend?_eq hlevel).symm⟩
    · have hlevel : operatorOf op.precedence l = some op := by
        rw [operatorOf, hop, Option.filter_some, if_pos (beq_self_eq_true _)]
      exact .inl fun left => ⟨extend?_eq (hnone (Nat.lt_succ_self _)),
        extend?_congr hl (hfrom (Nat.le_refl _)) hlevel rfl fun _ => rfl⟩
    · refine .inr fun left => ⟨?_, fun t h => ?_⟩
      · exact extend?_congr hl (hfrom (Nat.le_of_lt hgt)) (hfrom hgt) rfl fun _ => rfl
      · have := (extend?_none h).2 l hl
        rw [hfrom (Nat.le_of_lt hgt)] at this
        cases this

/-- No operator that binds at least as tightly as `m` is left behind what was read from there. -/
theorem climb_settled {e : Expr} (h : Reads (climb inner m) s e t) :
    ∀ l, t.current? = some l → operatorFrom m l = none := by
  unfold climb at h
  obtain ⟨left, s₁, -, hrest⟩ := reads_bind.1 h
  rw [reads_repeated extend?_productive] at hrest
  clear h
  induction hrest with
  | done h =>
    obtain ⟨rfl, hnone⟩ := extend?_none h
    exact hnone
  | more _ _ ih => exact ih

/-- Operators that bind at least as tightly as `m` are read by a loop over those that bind more
tightly, and then one over those of that precedence. -/
private theorem repeated_round (left : Expr) (s : State) :
    repeated (round inner m) left s =
      (repeated (round inner (m + 1)) left >>= repeated (levelRound inner m)) s := by
  -- The induction is on the tokens that are left: each round with an answer leaves one behind.
  induction hn : s.after.length using Nat.strongRecOn generalizing left s with | _ n ih
  have productive : Productive (round inner m) := extend?_productive
  change _ = EStateM.bind _ _ s
  rcases round_cases inner m s with hround | hround
  · obtain ⟨hnone, hlevel⟩ := hround left
    rw [EStateM.bind, repeated_of_none hnone]
    cases hr : levelRound inner m left s with
    | error d t => exact (repeated_of_fails (hlevel.trans hr)).trans (repeated_of_fails hr).symm
    | ok r t =>
      cases r with
      | none => exact (repeated_of_none (hlevel.trans hr)).trans (repeated_of_none hr).symm
      | some b =>
        obtain ⟨_, _, e, _, _, _, he, _⟩ := extend?_some hr
        have hlt : t.after.length < s.after.length := productive (hlevel.trans hr)
        have hsettled : round inner (m + 1) b t = .ok none t := extend?_eq (climb_settled he)
        calc repeated (round inner m) left s
          _ = repeated (round inner m) b t := repeated_of_some productive (hlevel.trans hr)
          _ = EStateM.bind (repeated (round inner (m + 1)) b) (repeated (levelRound inner m)) t :=
            ih _ (hn ▸ hlt) b t rfl
          _ = repeated (levelRound inner m) b t := by rw [EStateM.bind, repeated_of_none hsettled]
          _ = repeated (levelRound inner m) left s :=
            (repeated_of_some extend?_productive hr).symm
  · obtain ⟨hsame, hsome⟩ := hround left
    cases hr : round inner (m + 1) left s with
    | error d t => rw [repeated_of_fails (hsame.trans hr), EStateM.bind, repeated_of_fails hr]
    | ok r t =>
      cases r with
      | none => exact absurd (hsame.trans hr) (hsome t)
      | some b =>
        have hlt : t.after.length < s.after.length := productive (hsame.trans hr)
        rw [repeated_of_some productive (hsame.trans hr), ih _ (hn ▸ hlt) b t rfl, EStateM.bind,
          repeated_of_some extend?_productive hr]
        rfl

private theorem climb_succ (inner : Inner) [∀ e, Advances (inner e)] (m : Nat) : climb inner m = (do
    repeated (levelRound inner m) (← climb inner (m + 1))) := by
  have hfused (left : Expr) : repeated (round inner m) left =
      repeated (round inner (m + 1)) left >>= repeated (levelRound inner m) :=
    funext (repeated_round left)
  rw [climb, climb.eq_def inner (m + 1), bind_assoc]
  exact bind_congr hfused

private theorem climb_of_le (inner : Inner) (h : 8 ≤ m) : climb inner m = unary inner := by
  have hnone (l : Lexeme) : operatorFrom m l = none := by
    refine Option.bind_eq_none_iff.2 fun op _ => dif_neg fun hop => ?_
    have := op.precedence_lt
    omega
  rw [climb, repeated_extend?_of_forall _ _ hnone, bind_pure]

theorem levels_of_lt (h : m < 8) : levels m = m :: levels (m + 1) := by
  obtain ⟨n, hn⟩ : ∃ n, 8 - m = n + 1 := ⟨7 - m, by omega⟩
  rw [levels, levels, hn, List.range'_succ, show 8 - (m + 1) = n by omega]

/-- One loop over all operators that bind tightly enough reads what a loop for each precedence
reads. -/
theorem climb_eq_binary (inner : Inner) [∀ e, Advances (inner e)] (m : Nat) :
    climb inner m = binary inner (levels m) := by
  induction hn : 8 - m generalizing m with
  | zero => rw [climb_of_le inner (by omega), levels, hn, List.range'_zero, binary]
  | succ n ih =>
    rw [climb_succ, levels_of_lt (by omega), binary, ← ih (m + 1) (by omega)]

private theorem climb_succ_of_lt (inner : Inner) [∀ e, Advances (inner e)] (h : m < 2) :
    climb inner m = climb inner (m + 1) := by
  have hnone (l : Lexeme) : operatorOf m l = none := by
    refine Option.filter_eq_none_iff.2 fun op _ hop => ?_
    have := op.two_le_precedence
    have := eq_of_beq hop
    omega
  rw [climb_succ, levelRound, repeated_extend?_of_forall _ _ hnone, bind_pure]

private theorem climb_zero_eq_binary (inner : Inner) [∀ e, Advances (inner e)] :
    climb inner 0 = binary inner BinaryOp.precedences := by
  rw [climb_succ_of_lt inner (by omega), climb_succ_of_lt inner (by omega), climb_eq_binary]
  rfl

/-- Pipes are read between operands that are read level by level. -/
theorem pipe_eq (inner : Inner) [∀ e, Advances (inner e)] : pipe inner = (do
    let operands := binary inner BinaryOp.precedences
    repeated (extend? pipeOf (fun _ => operands) fun span _ => .pipe span) (← operands)) := by
  rw [pipe, climb_zero_eq_binary]

end Climb

end Grammar

end ApiScript
