import ApiScript.Proofs.Reading.Loops

set_option autoImplicit false
set_option relaxedAutoImplicit false

/-!
The three loops over statements, told by what one round does. A round that is not at the end of the
loop moves forward, also where its statement fails at once and nothing could be skipped otherwise,
so that there are no more rounds than tokens ahead.
-/

namespace ApiScript.Grammar

namespace Surroundings

abbrev Statement : Surroundings → Type
  | script => Item
  | block => Item
  | runBlock => RunItem

def ends : Surroundings → State → Bool
  | script => State.atEnd
  | block => atBlockEnd
  | runBlock => atBlockEnd

def statement (inner : Inner) : (around : Surroundings) → Parser around.Statement
  | script => item inner
  | block => item inner
  | runBlock => runItem inner

def loop (inner : Inner) (around : Surroundings) : Parser (List around.Statement) :=
  statements around around.ends (around.statement inner)

/-- One round of the loop: the statement, if it was read, and the state to go on with. -/
def round (inner : Inner) (around : Surroundings) (s : State) : Option around.Statement × State :=
  match around.statement inner s with
  | .ok a t => (some a, t)
  | .error d t => (none, (t.report [d]).recover around s.before.length)

/-- So many rounds, whether or not the loop would be at its end: the statements read, and the state
reached. -/
def rounds (inner : Inner) (around : Surroundings) : Nat → State → List around.Statement × State
  | 0, s => ([], s)
  | n + 1, s =>
    let first := around.round inner s
    let rest := rounds inner around n first.2
    (first.1.toList ++ rest.1, rest.2)

end Surroundings

/-- A script is the loop over its statements. -/
theorem script_eq (inner : Inner) : script inner = (do
    let s ← get
    if s.broken then return ⟨[], s.area⟩
    return ⟨← Surroundings.script.loop inner, s.area⟩) := rfl

/-- A block is the loop over its statements, in braces. -/
theorem itemBlock_eq (inner : Inner) : itemBlock inner = (do
    let opener ← expect (.symbol .leftBrace)
    let items ← Surroundings.block.loop inner
    let closer ← close .brace false opener
    return ⟨items, opener.merge closer⟩) := rfl

/-- A run block is the loop over its statements, in braces. -/
theorem runBlock_eq (inner : Inner) (start : Span) : runBlock inner start = (do
    let opener ← expect (.symbol .leftBrace)
    let items ← Surroundings.runBlock.loop inner
    let closer ← close .brace false opener
    return .block (start.merge closer) items) := rfl

private theorem Reaches.position {s t : State} (h : Reaches s t) :
    t.before.length + t.after.length = s.before.length + s.after.length := by
  obtain ⟨ts, h⟩ := h
  have hafter := h.length
  have hbefore := congrArg List.length h.before
  rw [List.length_append, List.length_reverse] at hbefore
  omega

namespace Surroundings

variable {inner : Inner} [∀ e, Advances (inner e)] {around : Surroundings} {s t : State}

instance : Advances (around.statement inner) := by
  cases around with
  | script => exact inferInstanceAs (Advances (item inner))
  | block => exact inferInstanceAs (Advances (item inner))
  | runBlock => exact inferInstanceAs (Advances (runItem inner))

instance [Consumes (inner .expression)] : Consumes (around.statement inner) := by
  cases around with
  | script => exact inferInstanceAs (Consumes (item inner))
  | block => exact inferInstanceAs (Consumes (item inner))
  | runBlock => exact inferInstanceAs (Consumes (runItem inner))

private theorem ends_of_atEnd (around : Surroundings) (s : State) (h : s.atEnd) :
    around.ends s := by
  cases around with
  | script => exact h
  | block => exact atBlockEnd_of_atEnd s h
  | runBlock => exact atBlockEnd_of_atEnd s h

omit [∀ e, Advances (inner e)] in
private theorem round_of_reads {a : around.Statement} (h : Reads (around.statement inner) s a t) :
    around.round inner s = (some a, t) := by
  unfold round
  rw [h]

omit [∀ e, Advances (inner e)] in
private theorem round_of_fails {d : Diagnostic} (h : Fails (around.statement inner) s d t) :
    around.round inner s = (none, (t.report [d]).recover around s.before.length) := by
  unfold round
  rw [h]

private theorem round_reaches (inner : Inner) [∀ e, Advances (inner e)] (around : Surroundings)
    (s : State) :
    Reaches s (around.round inner s).2 := by
  cases h : around.statement inner s with
  | ok a t =>
    rw [round_of_reads h]
    exact Advances.reads h
  | error d t =>
    rw [round_of_fails h]
    have hfailed : Reaches s t := Advances.fails h
    exact (hfailed.trans (.report t [d])).trans (.recover _ _ _)

variable [Consumes (inner .expression)]

private theorem round_shorter (h : ¬around.ends s) :
    (around.round inner s).2.after.length < s.after.length := by
  cases hs : around.statement inner s with
  | ok a t =>
    rw [round_of_reads hs]
    exact Consumes.shorter hs
  | error d t =>
    rw [round_of_fails hs]
    have hfailed : Reaches s (t.report [d]) := (Advances.fails hs).trans (.report t [d])
    -- The skipping has a token to begin with, since without one the loop would be at its end.
    have hahead : s.after ≠ [] := by
      intro hnil
      apply h
      apply ends_of_atEnd
      simp only [State.atEnd, hnil, List.isEmpty_nil]
    exact recover_shorter around hfailed hahead

private theorem round_forward (h : ¬around.ends s) :
    s.before.length < (around.round inner s).2.before.length := by
  have hahead : (around.round inner s).2.after.length < s.after.length := round_shorter h
  have hall := (round_reaches inner around s).position
  omega

/-- There are no more rounds than tokens ahead, and they are what the loop reads. -/
private theorem loop_rounds (inner : Inner) [∀ e, Advances (inner e)] [Consumes (inner .expression)]
    (around : Surroundings) (s : State) :
    ∃ n ≤ s.after.length, (∀ m < n, ¬around.ends (around.rounds inner m s).2) ∧
    around.ends (around.rounds inner n s).2 ∧
    Listed around around.ends (around.statement inner) s (around.rounds inner n s).1
      (around.rounds inner n s).2 := by
  induction hlength : s.after.length using Nat.strongRecOn generalizing s with
  | ind length ih =>
    by_cases hend : around.ends s
    · refine ⟨0, Nat.zero_le _, ?_, hend, .done hend⟩
      intro m hm
      omega
    · have hshorter : (around.round inner s).2.after.length < s.after.length := round_shorter hend
      obtain ⟨n, hn, hopen, hlast, hlisted⟩ := ih _ (by omega) (around.round inner s).2 rfl
      refine ⟨n + 1, by omega, ?_, hlast, ?_⟩
      · intro m hm
        cases m with
        | zero => exact hend
        | succ m => exact hopen m (by omega)
      · cases hs : around.statement inner s with
        | ok a t =>
          simp only [rounds, round_of_reads hs] at hlisted ⊢
          exact .read hend hs hlisted
        | error d t =>
          simp only [rounds, round_of_fails hs] at hlisted ⊢
          exact .resume hend hs hlisted

end Surroundings

/-- Each round of a loop over statements moves forward, at the least by the statement that it reads,
and the loop does as many rounds as it takes to come to its end, of which there are no more than
tokens ahead. -/
theorem rounds_progress (limit room : Nat) (around : Surroundings) (s : State) :
    (∀ a t, Reads (around.statement (enter limit room)) s a t → s.before.length < t.before.length) ∧
    (¬around.ends s → s.before.length < (around.round (enter limit room) s).2.before.length) ∧
    ∃ n ≤ s.after.length, (∀ m < n, ¬around.ends (around.rounds (enter limit room) m s).2) ∧
      around.ends (around.rounds (enter limit room) n s).2 ∧
      Reads (around.loop (enter limit room)) s (around.rounds (enter limit room) n s).1
        (around.rounds (enter limit room) n s).2 := by
  refine ⟨?_, Surroundings.round_forward, ?_⟩
  · intro a t h
    have hahead : t.after.length < s.after.length := Consumes.shorter h
    have hall : Reaches s t := Advances.reads h
    have := hall.position
    omega
  · obtain ⟨n, hn, hopen, hlast, hlisted⟩ := Surroundings.loop_rounds (enter limit room) around s
    have hloop : Reads (around.loop (enter limit room)) s _ _ :=
      (reads_statements (Surroundings.ends_of_atEnd around)).2 hlisted
    exact ⟨n, hn, hopen, hlast, hloop⟩

/-- A round over a closer without an opener, which no statement begins with and nothing else would
skip. -/
theorem rounds_progress_at_closer :
    let s : State := .ofString ")" 0
    ¬Surroundings.script.ends s ∧ (Surroundings.script.round (enter 2 2) s).1.isNone ∧
      s.before.length < (Surroundings.script.round (enter 2 2) s).2.before.length := by
  intro s
  have hend : ¬Surroundings.script.ends s := by decide +kernel
  exact ⟨hend, by decide +kernel, (rounds_progress 2 2 .script s).2.1 hend⟩

end ApiScript.Grammar
