import ApiScript.Proofs.Recovery.Readers

set_option autoImplicit false
set_option relaxedAutoImplicit false

/-!
Where recovery stops in a block. The closing brace it stops at is that of the innermost brace open
at the failure, so that it is the block's own exactly where the failed statement has no brace open.
-/

namespace ApiScript.Grammar

inductive Braced (inner : Inner) : {α : Type} → Surroundings → Parser α → Prop
  | block : Braced inner .block (item inner)
  | runBlock : Braced inner .runBlock (runItem inner)

/-- Reading statements in braces from the first state on begins one at the second. -/
inductive Attempts {α : Type} (surroundings : Surroundings) (statement : Parser α) :
    State → State → Prop
  | start {s : State} (h : ¬atBlockEnd s) : Attempts surroundings statement s s
  | read {s t u : State} {a : α} (h : ¬atBlockEnd s) (ha : Reads statement s a t)
    (rest : Attempts surroundings statement t u) : Attempts surroundings statement s u
  | resume {s t u : State} {d : Diagnostic} (h : ¬atBlockEnd s) (hd : Fails statement s d t)
    (rest : Attempts surroundings statement
      ((t.report [d]).recover surroundings s.before.length) u) :
    Attempts surroundings statement s u

section Attempts

variable {α : Type} {surroundings : Surroundings} {statement : Parser α} {s u : State}

private theorem Attempts.unended (h : Attempts surroundings statement s u) : ¬atBlockEnd u := by
  induction h with
  | start h => exact h
  | read _ _ _ ih => exact ih
  | resume _ _ _ ih => exact ih

variable [Advances statement]

private theorem Attempts.reaches (h : Attempts surroundings statement s u) : Reaches s u := by
  induction h with
  | start => exact .refl _
  | read _ ha _ ih => exact (Advances.reads ha).trans ih
  | resume _ hd _ ih =>
    exact ((Advances.fails hd).trans (.report _ _)).trans ((Reaches.recover _ _ _).trans ih)

private theorem Attempts.keeps [Keeps statement] (hb : surroundings ≠ .script)
    (h : Attempts surroundings statement s u) {n : Nat} {ks : List (Nat × Delimiter)}
    (hs : s.Nested) (ha : Above ((n, .brace) :: ks) s) :
    Above ((n, .brace) :: ks) u := by
  induction h with
  | start => exact ha
  | read _ hr _ ih => exact ih (hs.reaches (Advances.reads hr)) ((Keeps.leaves hs ha).reads hr)
  | @resume s t _ d hend hd _ ih =>
    have hreach : Reaches s (t.report [d]) := (Advances.fails hd).trans (.report _ _)
    have hn := hs.reaches hreach
    have hkept : Above ((n, .brace) :: ks) t := (Keeps.leaves hs ha).fails hd
    exact ih (hn.reaches (.recover _ _ _)) (.recover hb hend hreach hn hkept)

end Attempts

/-- Recovery that stops at a closing brace has left just the brackets open that the innermost brace
open at the failure is in, that brace included. -/
private theorem openers_recover {surroundings : Surroundings} {s t : State}
    (hb : surroundings ≠ .script) (hs : ¬atBlockEnd s) (h : Reaches s t) (ht : t.Nested)
    (hstop : (t.recover surroundings s.before.length).sees (.symbol .rightBrace) = true) :
    openers (t.recover surroundings s.before.length).before = (openers t.before).dropWhile
      (·.2 != .brace) := by
  obtain ⟨next, rest, hafter, hnext⟩ := State.sees_iff.1 hstop
  refine skip_stops hb (State.nested_iff.1 ht) (fun hm _ => ne_rightBrace_of_must hs h hm)
    ⟨next, ?_, hnext⟩
  exact List.head?_eq_some_iff.2 ⟨rest, hafter⟩

private theorem head?_braces_iff {os : List (Nat × Delimiter)} {n : Nat}
    (hordered : os.Pairwise fun a b => b.1 < a.1) (h : (n, .brace) ∈ os) :
    (os.dropWhile (·.2 != .brace)).head? = some (n, .brace) ↔ ∀ m, (m, .brace) ∈ os → m ≤ n := by
  induction os with
  | nil => cases h
  | cons a os ih =>
    obtain ⟨m, d⟩ := a
    obtain ⟨hlater, hordered⟩ := List.pairwise_cons.1 hordered
    by_cases hd : d = .brace
    · subst hd
      rw [List.dropWhile_cons_of_neg (by simp), List.head?_cons, Option.some.injEq, Prod.mk.injEq]
      have hle : n ≤ m := by
        rcases List.mem_cons.1 h with h | h
        · exact Nat.le_of_eq (congrArg Prod.fst h)
        · exact Nat.le_of_lt (hlater _ h)
      constructor
      · rintro ⟨rfl, -⟩ k hk
        rcases List.mem_cons.1 hk with hk | hk
        · exact Nat.le_of_eq (congrArg Prod.fst hk)
        · exact Nat.le_of_lt (hlater _ hk)
      · intro hall
        exact ⟨Nat.le_antisymm (hall m (List.mem_cons_self ..)) hle, rfl⟩
    · have hskip (k : Nat) : (k, .brace) ∈ (m, d) :: os ↔ (k, Delimiter.brace) ∈ os := by
        simp [Ne.symm hd]
      rw [List.dropWhile_cons_of_pos (by simpa using hd), ih hordered ((hskip n).1 h)]
      simp only [hskip]

section Braced

variable {α : Type} {surroundings : Surroundings} {statement : Parser α} {limit room : Nat}

private theorem Braced.surroundings_ne {inner : Inner} (h : Braced inner surroundings statement) :
    surroundings ≠ .script := by
  cases h <;> decide

private theorem Braced.advances (h : Braced (enter limit room) surroundings statement) :
    Advances statement := by
  cases h <;> infer_instance

private theorem Braced.keeps (h : Braced (enter limit room) surroundings statement) :
    Keeps statement := by
  cases h <;> infer_instance

/-- Where a statement in braces fails and recovery stops at a closing brace, that brace closes the
block of the statement exactly if no brace opened since the block's own is open where the statement
failed. -/
theorem recovers_at_own_brace_iff (hb : Braced (enter limit room) surroundings statement)
    {s u t : State} {d : Diagnostic} (hs : s.Nested) (hopener : s.sees (.symbol .leftBrace) = true)
    (hu : Attempts surroundings statement s.advance u) (hd : Fails statement u d t)
    (hstop : ((t.report [d]).recover surroundings u.before.length).sees
      (.symbol .rightBrace) = true) :
    (openers ((t.report [d]).recover surroundings u.before.length).before).head? =
      some (s.before.length, .brace) ↔
      ∀ n, (n, .brace) ∈ openers t.before → n ≤ s.before.length := by
  have := hb.advances
  have := hb.keeps
  have hreach : Reaches u (t.report [d]) := (Advances.fails hd).trans (.report _ _)
  have hn := hs.advance.reaches hu.reaches
  have hbegun := hu.keeps hb.surroundings_ne hs.advance (above_opener hopener rfl)
  have hbase : Above ((s.before.length, .brace) :: openers s.before) t :=
    (Keeps.leaves hn hbegun).fails hd
  rw [openers_recover hb.surroundings_ne hu.unended hreach (hn.reaches hreach) hstop]
  exact head?_braces_iff (openers_ordered t.before).1 (hbase.mem (List.mem_cons_self ..))

/-- An arm that goes wrong ends the block around the choice with the brace of the choice. -/
theorem recovers_at_brace_of_choice : ∃ d t,
    Fails (item (enter 8 8)) (State.ofString "{ match x { 1 2 } let y = 1 }" 0).advance d t ∧
      ((t.report [d]).recover .block 1).sees (.symbol .rightBrace) = true ∧
      (openers ((t.report [d]).recover .block 1).before).head? ≠ some (0, .brace) := by
  have hrun : (match item (enter 8 8)
      (State.ofString "{ match x { 1 2 } let y = 1 }" 0).advance with
      | .ok _ _ => false
      | .error d t => ((t.report [d]).recover .block 1).sees (.symbol .rightBrace) &&
          (openers t.before).contains (3, .brace)) = true := by
    decide +kernel
  split at hrun
  · cases hrun
  · rename_i d t hd
    rw [Bool.and_eq_true, List.contains_iff_mem] at hrun
    refine ⟨d, t, hd, hrun.1, ?_⟩
    have hown :=
      recovers_at_own_brace_iff .block (s := State.ofString "{ match x { 1 2 } let y = 1 }" 0) (by
      simp only [State.nested_iff]; decide +kernel) (by decide +kernel) (.start
        (by decide +kernel)) hd hrun.1
    exact fun h => absurd (hown.1 h 3 hrun.2) (by decide +kernel)

end Braced

end ApiScript.Grammar
