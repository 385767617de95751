import ApiScript.Value.Match

set_option autoImplicit false
set_option relaxedAutoImplicit false

/-!
The arm that a selection ends with, and the guards that it asks on the way. An answer may depend on
all that was asked before, so the answers that decide are those of this very selection. They are
told from a log of it.
-/

namespace ApiScript

namespace Arm

variable {State : Type} (guard : Expr → StateM State Bool) (v : Value)

/-- The guard that the arm asks: its own, where its pattern takes the value. -/
def asks? (arm : Arm) : Option Expr := if arm.pattern.matches v then arm.guard else none

def asked (arms : List Arm) : List Expr := arms.filterMap (asks? v)

/-- The callback, which also writes down what it is asked and what it answers. -/
def logged (g : Expr) : StateM (State × List (Expr × Bool)) Bool := fun (s, log) =>
  let (answer, s) := guard g s
  (answer, s, log ++ [(g, answer)])

/-- The answer, in the log of a selection, to the guard of the arm at a position: the one behind
those to the guards that the arms in front ask. -/
def answer? (arms : List Arm) (log : List (Expr × Bool)) (i : Nat) : Option Bool :=
  log[(asked v (arms.take i)).length]?.map Prod.snd

/-- The arm at the position takes the value, and has no guard or one that was answered with true. -/
def Handles (arms : List Arm) (log : List (Expr × Bool)) (i : Nat) : Prop :=
  ∃ arm, arms[i]? = some arm ∧ arm.pattern.matches v = true ∧
    (arm.guard = none ∨ answer? v arms log i = some true)

def FallsThrough (arms : List Arm) (log : List (Expr × Bool)) (i : Nat) : Prop :=
  ∃ arm, arms[i]? = some arm ∧
    (arm.pattern.matches v = false ∨ arm.guard.isSome = true ∧ answer? v arms log i = some false)

def Selected (arms : List Arm) (log : List (Expr × Bool)) (i : Nat) : Prop :=
  Handles v arms log i ∧ ∀ j < i, FallsThrough v arms log j

/-- The arms that a selection comes to: those up to the one it ends with, or all. -/
def visited (arms : List Arm) : Option Nat → List Arm
  | some i => arms.take (i + 1)
  | none => arms

/-- What the log shows where a selection ends with the arm at a position, or with none. -/
private def Outcome (arms : List Arm) (log : List (Expr × Bool)) : Option Nat → Prop
  | some i => Selected v arms log i
  | none => ∀ i < arms.length, FallsThrough v arms log i

section Log

variable {v} {arm : Arm} {arms : List Arm} {log first : List (Expr × Bool)} {i j : Nat}

private theorem Handles.lt_length (h : Handles v arms log i) : i < arms.length := by
  obtain ⟨arm, harm, -⟩ := h
  exact (List.getElem?_eq_some_iff.1 harm).1

private theorem Handles.not_fallsThrough (h : Handles v arms log i) :
    ¬FallsThrough v arms log i := by
  obtain ⟨arm, harm, htakes, hholds⟩ := h
  rintro ⟨other, hother, hfalls⟩
  obtain rfl : arm = other := Option.some.inj (harm.symm.trans hother)
  rcases hfalls with hfalls | ⟨hguard, hfalse⟩
  · rw [htakes] at hfalls
    cases hfalls
  · rcases hholds with hnone | htrue
    · rw [hnone] at hguard
      cases hguard
    · rw [htrue] at hfalse
      cases hfalse

private theorem Selected.unique (hi : Selected v arms log i) (hj : Selected v arms log j) :
    i = j := by
  rcases Nat.lt_trichotomy i j with hlt | heq | hgt
  · exact absurd (hj.2 i hlt) hi.1.not_fallsThrough
  · exact heq
  · exact absurd (hi.2 j hgt) hj.1.not_fallsThrough

/-- A selection ends as its log shows, and in no other way. -/
private theorem Outcome.iff {r : Option Nat} (h : Outcome v arms log r) :
    (∀ i, r = some i ↔ Selected v arms log i) ∧ (r = none ↔ ∀ i, ¬Selected v arms log i) := by
  cases r with
  | none =>
    have hnone (i : Nat) : ¬Selected v arms log i :=
      fun hi => hi.1.not_fallsThrough (h i hi.1.lt_length)
    exact ⟨fun i => ⟨nofun, fun hi => absurd hi (hnone i)⟩, fun _ => hnone, fun _ => rfl⟩
  | some k =>
    refine ⟨fun i => ⟨?_, fun hi => congrArg some (Selected.unique h hi)⟩, nofun, fun hnone =>
      absurd h (hnone k)⟩
    intro hk
    obtain rfl := Option.some.inj hk
    exact h

private theorem answer?_cons (hfirst : first.map Prod.fst = (asks? v arm).toList) :
    answer? v (arm :: arms) (first ++ log) (i + 1) = answer? v arms log i := by
  have hlength : first.length = (asks? v arm).toList.length := by rw [← hfirst, List.length_map]
  have hasked :
      (asked v ((arm :: arms).take (i + 1))).length = first.length +
        (asked v (arms.take i)).length := by
    rw [hlength, List.take_succ_cons, asked, asked, List.filterMap_cons]
    cases asks? v arm with
    | none => rw [Option.toList_none, List.length_nil, Nat.zero_add]
    | some g => rw [List.length_cons, Option.toList_some, List.length_singleton, Nat.add_comm]
  rw [answer?, answer?, hasked, List.getElem?_append_right (Nat.le_add_right _ _),
    Nat.add_sub_cancel_left]

private theorem Handles.cons (hfirst : first.map Prod.fst = (asks? v arm).toList)
    (h : Handles v arms log i) :
    Handles v (arm :: arms) (first ++ log) (i + 1) := by
  obtain ⟨other, hother, htakes, hholds⟩ := h
  refine ⟨other, hother, htakes, ?_⟩
  rwa [answer?_cons hfirst]

private theorem FallsThrough.cons (hfirst : first.map Prod.fst = (asks? v arm).toList)
    (h : FallsThrough v arms log i) :
    FallsThrough v (arm :: arms) (first ++ log) (i + 1) := by
  obtain ⟨other, hother, hfalls⟩ := h
  refine ⟨other, hother, ?_⟩
  rwa [answer?_cons hfirst]

private theorem Outcome.cons {r : Option Nat} (hfirst : first.map Prod.fst = (asks? v arm).toList)
    (hfalls : FallsThrough v (arm :: arms) (first ++ log) 0) (h : Outcome v arms log r) :
    Outcome v (arm :: arms) (first ++ log) (r.map (· + 1)) := by
  cases r with
  | none =>
    intro i hi
    cases i with
    | zero => exact hfalls
    | succ i => exact (h i (Nat.lt_of_succ_lt_succ hi)).cons hfirst
  | some k =>
    refine ⟨h.1.cons hfirst, fun j hj => ?_⟩
    cases j with
    | zero => exact hfalls
    | succ j => exact (h.2 j (Nat.lt_of_succ_lt_succ hj)).cons hfirst

private theorem asked_visited_cons {r : Option Nat}
    (hfirst : first.map Prod.fst = (asks? v arm).toList)
    (h : log.map Prod.fst = asked v (visited arms r)) :
    (first ++ log).map Prod.fst = asked v (visited (arm :: arms) (r.map (· + 1))) := by
  have hvisited : visited (arm :: arms) (r.map (· + 1)) = arm :: visited arms r := by
    cases r <;> rfl
  rw [hvisited, List.map_append, hfirst, h, asked, asked, List.filterMap_cons]
  cases asks? v arm <;> rfl

end Log

section Selection

variable {guard v} {arm : Arm} {arms : List Arm} {s t finish : State} {r : Option Nat} {g : Expr}

private theorem select?_pass (h : arm.pattern.matches v = false)
    (hrest : select? guard v arms s = (r, finish)) :
    select? guard v (arm :: arms) s = (r.map (· + 1), finish) := by
  have hstep : select? guard v (arm :: arms) s =
      ((select? guard v arms s).1.map (· + 1), (select? guard v arms s).2) := by
    simp only [select?, h, Bool.false_eq_true, ↓reduceIte]
    rfl
  rw [hstep, hrest]

private theorem select?_take (h : arm.pattern.matches v = true) (hguard : arm.guard = none) :
    select? guard v (arm :: arms) s = (some 0, s) := by
  simp only [select?, h, hguard, ↓reduceIte, pure_bind]
  rfl

private theorem select?_holds (h : arm.pattern.matches v = true) (hguard : arm.guard = some g)
    (hanswer : guard g s = (true, t)) : select? guard v (arm :: arms) s = (some 0, t) := by
  simp only [select?, h, hguard, ↓reduceIte, bind, StateT.bind, hanswer]
  rfl

private theorem select?_fails (h : arm.pattern.matches v = true) (hguard : arm.guard = some g)
    (hanswer : guard g s = (false, t)) (hrest : select? guard v arms t = (r, finish)) :
    select? guard v (arm :: arms) s = (r.map (· + 1), finish) := by
  simp only [select?, h, hguard, Bool.false_eq_true, ↓reduceIte, bind, StateT.bind, hanswer, hrest]
  rfl

private theorem logged_eq {answer : Bool} (hanswer : guard g s = (answer, t))
    (log : List (Expr × Bool)) :
    logged guard g (s, log) = (answer, t, log ++ [(g, answer)]) := by
  simp only [logged, hanswer]

private theorem select?_logged (arms : List Arm) (s : State) (before : List (Expr × Bool)) :
    ∃ r finish log, select? (logged guard) v arms (s, before) = (r, finish, before ++ log) ∧
      select? guard v arms s = (r, finish) ∧ log.map Prod.fst = asked v (visited arms r) ∧
      Outcome v arms log r := by
  induction arms generalizing s before with
  | nil => exact ⟨none, s, [], by rw [List.append_nil]; rfl, rfl, rfl, nofun⟩
  | cons arm arms ih =>
    cases htakes : arm.pattern.matches v with
    | false =>
      have hasks : asks? v arm = none := by simp [asks?, htakes]
      obtain ⟨r, finish, log, hlogged, hplain, hasked, houtcome⟩ := ih s before
      have hfirst : ([] : List (Expr × Bool)).map Prod.fst = (asks? v arm).toList := by
        rw [hasks]; rfl
      refine ⟨r.map (· + 1), finish, [] ++ log, select?_pass htakes hlogged,
        select?_pass htakes hplain, asked_visited_cons hfirst hasked,
        houtcome.cons hfirst ⟨arm, rfl, .inl htakes⟩⟩
    | true =>
      have hasks : asks? v arm = arm.guard := by simp [asks?, htakes]
      cases hguard : arm.guard with
      | none =>
        refine ⟨some 0, s, [], ?_, select?_take htakes hguard, ?_,
          ⟨arm, rfl, htakes, .inl hguard⟩, nofun⟩
        · rw [List.append_nil]
          exact select?_take htakes hguard
        · simp [visited, asked, hasks, hguard]
      | some g =>
        cases hanswer : guard g s with
        | mk answer t =>
        have hlog := logged_eq hanswer before
        cases answer with
        | true =>
          refine ⟨some 0, t, [(g, true)], select?_holds htakes hguard hlog,
            select?_holds htakes hguard hanswer, ?_, ⟨arm, rfl, htakes, .inr rfl⟩, nofun⟩
          simp [visited, asked, hasks, hguard]
        | false =>
          obtain ⟨r, finish, log, hlogged, hplain, hasked, houtcome⟩ :=
            ih t (before ++ [(g, false)])
          rw [List.append_assoc] at hlogged
          have hfirst : [(g, false)].map Prod.fst = (asks? v arm).toList := by
            rw [hasks, hguard]; rfl
          refine ⟨r.map (· + 1), finish, [(g, false)] ++ log,
            select?_fails htakes hguard hlog hlogged, select?_fails htakes hguard hanswer hplain,
            asked_visited_cons hfirst hasked, houtcome.cons hfirst ?_⟩
          exact ⟨arm, rfl, .inr ⟨by rw [hguard]; rfl, rfl⟩⟩

end Selection

end Arm

/-- A selection answers with the position of an arm where that arm handles the value and all arms in
front of it fall through, and with none where there is no such arm. It asks the guards of the arms
that take the value, up to the one it ends with, each once and in order. -/
theorem Choice.select?_selects {State : Type} (c : Choice) (v : Value)
    (guard : Expr → StateM State Bool) (s : State) :
    ∃ r finish log, c.select? v (Arm.logged guard) (s, []) = (r, finish, log) ∧
    c.select? v guard s = (r, finish) ∧
      (∀ i, r = some i ↔ Arm.Selected v c.arms log i) ∧
      (r = none ↔ ∀ i, ¬Arm.Selected v c.arms log i) ∧
      log.map Prod.fst = Arm.asked v (Arm.visited c.arms r) := by
  obtain ⟨r, finish, log, hlogged, hplain, hasked, houtcome⟩ :=
    @Arm.select?_logged State guard v c.arms s []
  obtain ⟨hsome, hnone⟩ := houtcome.iff
  exact ⟨r, finish, log, hlogged, hplain, hsome, hnone, hasked⟩

/-- Two arms with one guard, which holds from the second time on. -/
example : let e : Expr := .name ⟨"e", ⟨0, 1⟩⟩
    let arm : Arm := ⟨.wildcard ⟨0, 1⟩, some e, e, ⟨0, 1⟩⟩
    Choice.select? ⟨e, [arm, arm], ⟨0, 1⟩⟩ .null (fun _ (n : Nat) => (decide (0 < n), n + 1)) 0 =
      (some 1, 2) := rfl

end ApiScript
