import ApiScript.Proofs.Pairing.Regime

set_option autoImplicit false
set_option relaxedAutoImplicit false

/-!
Readers that do the same in both runs: they succeed with values that belong together, or fail with
diagnostics that do, and leave states that the same is ahead of.
-/

namespace ApiScript.Grammar

open Placed

/-- The grammar may read the lexeme, which begins no declaration if there is a fence. -/
def Regime.Takes (R : Regime) (l : Lexeme) : Prop := l.opensDeclaration = true → R.fence.Open

theorem Regime.takes {R : Regime} {l : Lexeme} (h : l.opensDeclaration = false) : R.Takes l :=
  fun h' => absurd (h.symm.trans h') Bool.false_ne_true

/-- Two diagnostics belong together, and the first one starts in front of the bound. -/
structure Regime.Reports (R : Regime) (d d' : Diagnostic) : Prop where
  same : R.Same d d'
  bound : d.span.start ≤ R.fence.bound

inductive Agreed {α : Type} [Placed α] (R : Regime) (started : Bool) :
    EStateM.Result Diagnostic State α → EStateM.Result Diagnostic State α → Prop
  | ok {a a' : α} {s t : State} (h : R.Same a a') (hst : Twins R started s t) :
    Agreed R started (.ok a s) (.ok a' t)
  | error {d d' : Diagnostic} {s t : State} (h : R.Reports d d') (hst : Twins R false s t) :
    Agreed R started (.error d s) (.error d' t)

/-- The readers do the same at the two states; `started` tells whether they leave a token behind
when they succeed, or one had been left behind. -/
def Agree {α : Type} [Placed α] (R : Regime) (started : Bool) (p q : Parser α)
    (s t : State) : Prop :=
  Agreed R started (p s) (q t)

section Combinators

variable {α β : Type} [Placed α] [Placed β] {R : Regime} {b c : Bool} {s t : State} {p q : Parser α}

theorem Agree.pure {a a' : α} (h : R.Same a a') (hst : Twins R b s t) :
    Agree R b (pure a) (pure a') s t := .ok h hst

theorem Agree.throw {d d' : Diagnostic} (h : R.Reports d d') (hst : Twins R b s t) :
    Agree R c (throw d : Parser α) (throw d') s t := .error h (hst.weaken nofun)

theorem Agree.reads {a a' : α} {u v : State} (h : Agree R b p q s t) (hp : Reads p s a u)
    (hq : Reads q t a' v) :
    R.Same a a' ∧ Twins R b u v := by
  rw [Agree, hp, hq] at h
  cases h with
  | ok h hst => exact ⟨h, hst⟩

theorem Agree.fails {d d' : Diagnostic} {u v : State} (h : Agree R b p q s t) (hp : Fails p s d u)
    (hq : Fails q t d' v) : R.Reports d d' ∧ Twins R false u v := by
  rw [Agree, hp, hq] at h
  cases h with
  | error h hst => exact ⟨h, hst⟩

/-- What follows may use that it follows the success of the readers. -/
theorem Agree.bind_reads {k k' : α → Parser β} (h : Agree R b p q s t)
    (hk : ∀ a a' u v, Reads p s a u → Reads q t a' v → R.Same a a' → Twins R b u v →
    Agree R c (k a) (k' a') u v) :
    Agree R c (p >>= k) (q >>= k') s t := by
  unfold Agree at h ⊢
  change Agreed R c (EStateM.bind p k s) (EStateM.bind q k' t)
  unfold EStateM.bind
  unfold Reads at hk
  generalize p s = r at h hk ⊢
  generalize q t = r' at h hk ⊢
  cases h with
  | ok h hst => exact hk _ _ _ _ rfl rfl h hst
  | error h hst => exact .error h hst

theorem Agree.bind {k k' : α → Parser β} (h : Agree R b p q s t)
    (hk : ∀ a a' u v, R.Same a a' → Twins R b u v → Agree R c (k a) (k' a') u v) :
    Agree R c (p >>= k) (q >>= k') s t := h.bind_reads fun a a' u v _ _ => hk a a' u v

omit [Placed α] in
theorem Agree.pure_bind {a a' : α} {k k' : α → Parser β} (h : Agree R b (k a) (k' a') s t) :
    Agree R b (Pure.pure a >>= k) (Pure.pure a' >>= k') s t := h

theorem Agree.get_bind {k k' : State → Parser α} (h : Agree R b (k s) (k' t) s t) :
    Agree R b (get >>= k) (get >>= k') s t := h

omit [Placed β] in
theorem Agree.ask_bind {question question' : State → β} {k k' : β → Parser α}
    (h : Agree R b (k (question s)) (k' (question' t)) s t) :
    Agree R b (ask question >>= k) (ask question' >>= k') s t := h

theorem Agree.advance_bind {k k' : Unit → Parser α}
    (h : Agree R b (k ()) (k' ()) s.advance t.advance) :
    Agree R b (advance >>= k) (advance >>= k') s t := h

theorem Agree.outcome_bind {k k' : Except Diagnostic α → Parser β} (h : Agree R b p q s t)
    (hok : ∀ a a' u v, Reads p s a u → R.Same a a' → Twins R b u v →
    Agree R c (k (.ok a)) (k' (.ok a')) u v)
    (herror : ∀ d d' u v, Fails p s d u → R.Reports d d' → Twins R false u v →
      Agree R c (k (.error d)) (k' (.error d')) u v) :
    Agree R c (outcome p >>= k) (outcome q >>= k') s t := by
  unfold Agree at h ⊢
  change Agreed R c (EStateM.bind (outcome p) k s) (EStateM.bind (outcome q) k' t)
  unfold EStateM.bind outcome
  unfold Reads at hok
  unfold Fails at herror
  generalize p s = r at h hok herror ⊢
  generalize q t = r' at h ⊢
  cases h with
  | ok h hst => exact hok _ _ _ _ rfl h hst
  | error h hst => exact herror _ _ _ _ rfl h hst

theorem Agree.ite {d d' : Prop} [Decidable d] [Decidable d'] (hd : d ↔ d') {p' q' : Parser α}
    (hp : d → Agree R b p q s t) (hq : ¬d → Agree R b p' q' s t) :
    Agree R b (if d then p else p') (if d' then q else q') s t := by
  by_cases h : d
  · rw [if_pos h, if_pos (hd.1 h)]
    exact hp h
  · rw [if_neg h, if_neg (fun h' => h (hd.2 h'))]
    exact hq h

end Combinators

namespace Twins

variable {R : Regime} {b : Bool} {s t : State}

theorem read (h : Twins R b s t) {l : Lexeme} (hs : s.current? = some l) (hl : R.Takes l) :
    Twins R true s.advance t.advance := by
  refine h.advance (fun m hm => ?_) (fun hnil => ?_)
  · rw [hs] at hm
    cases hm
    exact hl
  · simp [State.current?, State.peek?, hnil] at hs

theorem here (h : Twins R b s t) (problem problem' : Problem)
    (hproblem : problem.respan R.left = problem'.respan R.right) :
    R.Reports ⟨problem, s.currentSpan⟩ ⟨problem', t.currentSpan⟩ where
  same := by
    have hspan : R.left s.currentSpan = R.right t.currentSpan := h.currentSpan
    simp only [Regime.Same, respan, Diagnostic.respan, hproblem, hspan]
  bound := h.fence.start_le

private theorem size_le (h : Twins R b s t) {l : Lexeme} (hs : s.current? = some l)
    (hl : l.opensDeclaration = false) :
    s.currentSpan.start + Text.byteSize l.spelling.toList ≤ R.fence.bound := by
  cases hafter : s.after with
  | nil => simp [State.current?, State.peek?, hafter] at hs
  | cons next ts =>
    obtain rfl : next.lexeme = l := by simpa [State.current?, State.peek?, hafter] using hs
    rw [Fence.currentSpan_of_after hafter]
    exact h.fence.size_le hafter hl

theorem string_le (h : Twins R b s t) {kind : StringClass} {raw : String}
    (hs : s.current? = some (.string kind raw)) :
    s.currentSpan.start + Text.byteSize raw.toList ≤ R.fence.bound :=
  h.size_le (l := .string kind raw) hs rfl

end Twins

section Basics

variable {α : Type} [Placed α] {R : Regime} {b c : Bool} {s t : State}

private theorem unexpected_eq (s : State) (expected : Expectation) :
    s.unexpected expected = ⟨match s.current? with
      | none => .unexpectedEnd expected
      | some found => .unexpectedToken expected found, s.currentSpan⟩ := by
  unfold State.unexpected
  cases hs : s.after <;> simp [State.current?, State.peek?, State.currentSpan, hs]

theorem agree_unexpected (expected : Expectation) (h : Twins R b s t) :
    Agree R c (unexpected expected : Parser α) (unexpected expected) s t := by
  refine .get_bind (.throw ?_ h)
  rw [unexpected_eq, unexpected_eq, h.current?]
  refine h.here _ _ ?_
  split <;> rfl

theorem agree_expect {l : Lexeme} (hl : R.Takes l) (h : Twins R b s t) :
    Agree R true (expect l) (expect l) s t := by
  unfold expect
  refine .get_bind (.ite (by rw [h.sees]) (fun hs => ?_) fun _ => agree_unexpected _ h)
  exact .advance_bind (.pure h.currentSpan (h.read (State.current?_of_sees hs) hl))

theorem agree_accept {l : Lexeme} (hl : R.Takes l) (h : Twins R b s t) :
    Agree R b (accept l) (accept l) s t := by
  unfold accept
  refine .get_bind (.ite (by rw [h.sees]) (fun hs => ?_) fun _ => .pure rfl h)
  exact .advance_bind (.pure rfl ((h.read (State.current?_of_sees hs) hl).weaken fun _ => rfl))

theorem agree_name (expected : Expectation) (h : Twins R b s t) :
    Agree R true (name expected) (name expected) s t := by
  unfold name
  refine .get_bind ?_
  rw [← h.current?]
  split
  · refine .advance_bind (.pure ?_ (h.read ‹_› (R.takes rfl)))
    have hspan : R.left s.currentSpan = R.right t.currentSpan := h.currentSpan
    simp only [Regime.Same, respan, Name.respan, hspan]
  · exact agree_unexpected _ h

theorem agree_close (delimiter : Delimiter) (list : Bool) {opener opener' : Span}
    (hopener : R.Same opener opener') (h : Twins R b s t) :
    Agree R true (close delimiter list opener) (close delimiter list opener') s t := by
  unfold close
  refine .get_bind (.ite (by rw [h.sees]) (fun hs => ?_) fun _ => ?_)
  · have htakes : R.Takes delimiter.closer := R.takes (by cases delimiter <;> rfl)
    exact .advance_bind (.pure h.currentSpan (h.read (State.current?_of_sees hs) htakes))
  · refine .throw (h.here _ _ ?_) h
    have hspan : R.left opener = R.right opener' := hopener
    rw [Problem.respan, Problem.respan, h.current?, hspan]

theorem agree_operand (operator : Lexeme) (h : Twins R b s t) :
    Agree R b (operand operator) (operand operator) s t := by
  unfold operand
  refine .get_bind (.ite (by rw [h.atExpressionStart]) (fun _ => .pure rfl h) fun _ =>
    .throw (h.here _ _ ?_) h)
  rw [h.current?]
  rfl

end Basics

section Loops

variable {α : Type} [Placed α] {R : Regime} {b c : Bool} {s t : State}

private theorem agree_repeatWithin {P : State → Prop} {step step' : α → Parser (Option α)}
    (hkeep : ∀ {a a' s t}, P s → R.fence.Holds s → Reads (step a) s (some a') t → P t)
    (hstep : ∀ {a a' s t}, P s → R.Same a a' → Twins R b s t → Agree R b (step a) (step' a') s t)
    (bound : Nat) {a a' : α} (hP : P s) (ha : R.Same a a') (h : Twins R b s t) :
    Agree R b (repeatWithin step bound a) (repeatWithin step' bound a') s t := by
  induction bound generalizing a a' s t with
  | zero => exact .pure ha h
  | succ bound ih =>
    refine (hstep hP ha h).bind_reads fun r r' u v hread _ hr huv => ?_
    cases r <;> cases r'
    · exact .pure ha huv
    · cases hr
    · cases hr
    · exact ih (hkeep hP h.fence hread) (Option.some.inj hr) huv

theorem agree_repeated {step step' : α → Parser (Option α)}
    (hstep : ∀ a a' s t, R.Same a a' → Twins R b s t → Agree R b (step a) (step' a') s t) {a a' : α}
    (ha : R.Same a a') (h : Twins R b s t) :
    Agree R b (repeated step a) (repeated step' a') s t := by
  refine .get_bind ?_
  rw [h.length]
  exact agree_repeatWithin (P := fun _ => True) (fun _ _ _ => trivial) (fun _ => hstep _ _ _ _)
    _ trivial ha h

theorem agree_collect {step step' : Parser (Option α)}
    (hstep : ∀ s t, Twins R b s t → Agree R b step step' s t) {first first' : List α}
    (hfirst : R.Same first first') (h : Twins R b s t) :
    Agree R b (collect step first) (collect step' first') s t := by
  refine agree_repeated (fun items items' s t hitems h => ?_) hfirst h
  refine (hstep s t h).bind fun r r' u v hr h => .pure ?_ h
  cases r <;> cases r'
  · rfl
  · cases hr
  · cases hr
  · exact congrArg
      some (same_append hitems (same_cons_left.2 ⟨_, [], rfl, Option.some.inj hr, rfl⟩))

theorem agree_delimited (delimiter : Delimiter) (trailing : Bool) {opener opener' : Span}
    (hopener : R.Same opener opener') {item item' : Parser α}
    (hitem : ∀ {b : Bool} {s t : State}, Twins R b s t → Agree R true item item' s t)
    (h : Twins R b s t) :
    Agree R true (delimited delimiter trailing opener item)
      (delimited delimiter trailing opener' item') s t := by
  unfold delimited
  refine .get_bind ?_
  have hclose {b : Bool} {items items' : List α} {u v : State} (hitems : R.Same items items')
    (h : Twins R b u v) :
      Agree R true (close delimiter true opener >>= fun closer => Pure.pure (items, closer))
        (close delimiter true opener' >>= fun closer => Pure.pure (items', closer)) u v :=
    (agree_close delimiter true hopener h).bind fun _ _ _ _ hcloser h =>
      .pure (Prod.ext hitems hcloser) h
  rw [← h.sees]
  split
  · exact hclose rfl h
  · refine (hitem h).bind fun first first' u v hfirst h => ?_
    refine Agree.bind (b := true) ?_ fun _ _ _ _ hitems h => hclose hitems h
    refine agree_collect (fun s t h => ?_) (same_cons_left.2 ⟨_, [], rfl, hfirst, rfl⟩) h
    refine (agree_accept (R.takes rfl) h).bind fun r r' u v hr h => ?_
    cases hr
    refine .ite Iff.rfl (fun _ => ?_) fun _ => .pure rfl h
    refine .get_bind (.ite (by rw [h.sees]) (fun _ => .pure rfl h) fun _ => ?_)
    exact (hitem h).bind fun _ _ _ _ h hst => .pure (congrArg some h) hst

end Loops

section Recovery

variable {α : Type} [Placed α] {R : Regime} {b : Bool} {s t : State}

private theorem resumesAt_congr (surroundings : Surroundings) {ts us : List Token}
    (h : ts.map (·.lexeme) = us.map (·.lexeme)) :
    surroundings.resumesAt ts = surroundings.resumesAt us := by
  have hstep := startsStep_congr h
  cases ts <;> cases us
  · rfl
  · cases h
  · cases h
  · simp only [Surroundings.resumesAt, hstep, (List.cons.inj h).1]

private theorem skip_congr (surroundings : Surroundings) (must : Bool) (opened : Nat)
    (before before' : List Token) {ts us : List Token} (h : ts.map (·.lexeme) = us.map (·.lexeme)) :
    ∃ n, skip surroundings must opened before ts = ((ts.take n).reverse ++ before, ts.drop n) ∧
      skip surroundings must opened before' us = ((us.take n).reverse ++ before', us.drop n) := by
  induction ts generalizing must opened before before' us with
  | nil =>
    cases us with
    | nil => exact ⟨0, rfl, rfl⟩
    | cons => cases h
  | cons x ts ih =>
    cases us with
    | nil => cases h
    | cons y us =>
      obtain ⟨hlexeme, hrest⟩ := List.cons.inj h
      rw [skip, skip, resumesAt_congr surroundings h, show x.lexeme = y.lexeme from hlexeme]
      split
      · exact ⟨0, rfl, rfl⟩
      · obtain ⟨n, hleft, hright⟩ :=
          ih false (openBrackets opened y.lexeme) (x :: before) (y :: before') hrest
        refine ⟨n + 1, ?_, ?_⟩
        · rw [hleft, List.take_succ_cons, List.reverse_cons, List.append_assoc,
            List.singleton_append, List.drop_succ_cons]
        · rw [hright, List.take_succ_cons, List.reverse_cons, List.append_assoc,
            List.singleton_append, List.drop_succ_cons]

private theorem Seams.drop {ts us : List Token} (h : Seams ts us) (n : Nat) :
    Seams (ts.drop n) (us.drop n) := by
  induction n generalizing ts us with
  | zero => exact h
  | succ n ih =>
    cases ts with
    | nil => simp [Seams]
    | cons =>
      cases us with
      | nil => simp [Seams]
      | cons => exact ih h.2

/-- Both runs recover from the failure of the statements that begin at the same place. -/
theorem Twins.recover {c : Bool} {start start' : State} (hstart : Twins R c start start')
    (hs : R.fence.Heads start) (hreach : Reaches start s) (h : Twins R b s t)
    (surroundings : Surroundings) :
    Twins R b (s.recover surroundings start.before.length)
      (t.recover surroundings start'.before.length) := by
  have hfence := Fence.Holds.recover hstart.fence hs hreach h.fence surroundings
  obtain ⟨us, us', hbefore, hbefore', hsame, hstarted⟩ := h.before
  obtain ⟨vs, vs', hfrom, hfrom', hsame', _⟩ := hstart.before
  have hmust :
      (s.before.length == start.before.length) = (t.before.length == start'.before.length) := by
    rw [hbefore, hbefore', hfrom, hfrom']
    simp only [List.length_append, same_length hsame, same_length hsame']
    rw [Bool.eq_iff_iff, beq_iff_eq, beq_iff_eq]
    omega
  obtain ⟨n, hleft, hright⟩ :=
    skip_congr surroundings (t.before.length == start'.before.length) 0 s.before t.before
    h.lexemes
  have hrecover : s.recover surroundings start.before.length =
      { s with before := (s.after.take n).reverse ++ s.before, after := s.after.drop n } := by
    simp only [State.recover, hmust, hleft]
  have hrecover' : t.recover surroundings start'.before.length =
      { t with before := (t.after.take n).reverse ++ t.before, after := t.after.drop n } := by
    simp only [State.recover, hright]
  have htake : R.Same (s.after.take n).reverse (t.after.take n).reverse := by
    have hafter := congrArg (fun ts => (ts.take n).reverse) h.after
    simpa only [Regime.Same, respan, List.map_take, List.map_reverse] using hafter
  have hdrop : R.Same (s.after.drop n) (t.after.drop n) := by
    have hafter := congrArg (fun ts => ts.drop n) h.after
    simpa only [Regime.Same, respan, List.map_drop] using hafter
  rw [hrecover, hrecover']
  rw [hrecover] at hfence
  exact
    { fence := hfence
      broken := h.broken
      after := hdrop
      seams := h.seams.drop n
      stop := h.stop
      before := ⟨(s.after.take n).reverse ++ us, (t.after.take n).reverse ++ us', by
        rw [hbefore, List.append_assoc], by
          rw [hbefore', List.append_assoc], same_append htake hsame,
        fun hb => List.append_ne_nil_of_right_ne_nil _ (hstarted hb)⟩
      log := h.log }

/-- Statements are read the same way, where no declaration that is fenced off begins one of them. -/
theorem agree_statements {P : State → Prop} {surroundings : Surroundings} {atEnd : State → Bool}
    {statement statement' : Parser α} [Advances statement]
    (hend : ∀ {s t : State}, Twins R false s t → atEnd s = atEnd t)
    (hheads : ∀ {s t : State}, P s → Twins R false s t → ¬atEnd s → R.fence.Heads s)
    (hreads : ∀ {s t : State} {a : α}, P s → R.fence.Holds s → Reads statement s a t → P t)
    (hfails : ∀ {s t : State} {d : Diagnostic}, P s → R.fence.Holds s → ¬atEnd s →
    Fails statement s d t →
      P ((t.report [d]).recover surroundings s.before.length))
    (hstatement : ∀ {s t : State}, R.fence.Heads s → Twins R false s t →
      Agree R true statement statement' s t) (hP : P s) (h : Twins R false s t) :
    Agree R false (statements surroundings atEnd statement)
        (statements surroundings atEnd statement') s t := by
  unfold statements repeated
  refine .get_bind ?_
  rw [h.length]
  refine agree_repeatWithin (P := P) (fun {items items' s t} hP hfence hr => ?_)
    (fun {items items' s t} hP hitems h => ?_)
    _ hP rfl h
  · rcases reads_statements_round.1 hr with ⟨_, hnone, _⟩ | ⟨hs, ⟨a, ha, _⟩ | ⟨d, u, hd, rfl, _⟩⟩
    · cases hnone
    · exact hreads hP hfence ha
    · exact hfails hP hfence hs hd
  · refine .get_bind (.ite (by rw [hend h]) (fun _ => .pure rfl h) fun hs => ?_)
    have hhead := hheads hP h hs
    refine (hstatement hhead h).outcome_bind (fun a a' u v _ ha huv => ?_)
      fun d d' u v hd hdd huv => ?_
    · exact .pure (congrArg some (same_append hitems (same_cons_left.2 ⟨_, [], rfl, ha, rfl⟩)))
        (huv.weaken nofun)
    · refine .pure (congrArg some hitems) ?_
      have hlog := huv.report (same_cons_left.2 ⟨d', [], rfl, hdd.same, rfl⟩)
        (fun e he => List.mem_singleton.1 he ▸ hdd.bound)
      exact h.recover hhead ((Advances.fails hd).trans (.report _ _)) hlog surroundings

end Recovery

end ApiScript.Grammar
