import ApiScript.Proofs.Limit.Nesting
import ApiScript.Proofs.Sequel.State

set_option autoImplicit false
set_option relaxedAutoImplicit false

/-!
Readers whose success carries over to a text with more behind it, and to another limit of nesting.
What is read takes levels, no more than its reader has room for, and where a second reader has room
for as many it reads the same.
-/

namespace ApiScript.Grammar

variable {α β : Type}

/-- A way from `s` to `u` on which something is read that takes `levels`, as far as nothing is
reported on it. If the levels that were taken before are within `reach`, these are; and where `room`
is enough for them, the same is read at another place, which leaves a state in `next`. -/
structure Carry (K : Sequel) (reach room taken levels : Nat) (s u : State) (next : State → Prop) :
    Prop where
  kept : s.log <+: u.log
  taken_le (hlog : u.log = s.log) : taken ≤ levels
  le_reach (hlog : u.log = s.log) (h : taken ≤ reach) : levels ≤ reach
  carry (hlog : u.log = s.log) (h : levels ≤ room) : ∃ v, next v ∧ K.Extends u v

section Carry

variable {K : Sequel} {reach room taken levels levels' : Nat} {s u w : State} {next : State → Prop}

theorem Carry.imp {next' : State → Prop} (h : Carry K reach room taken levels s u next)
    (hnext : ∀ v, K.Extends u v → next v → next' v) :
    Carry K reach room taken levels s u next' where
  kept := h.kept
  taken_le := h.taken_le
  le_reach := h.le_reach
  carry hlog hroom := (h.carry hlog hroom).imp fun v ⟨hv, huv⟩ => ⟨hnext v huv hv, huv⟩

theorem Carry.plain (hkept : s.log <+: u.log) (h : ∃ v, next v ∧ K.Extends u v) :
    Carry K reach room taken taken s u next where
  kept := hkept
  taken_le _ := Nat.le_refl taken
  le_reach _ h := h
  carry _ _ := h

private theorem Carry.behind (h : Carry K reach room 0 levels s u next) :
    Carry K reach room taken (max taken levels) s u next where
  kept := h.kept
  taken_le _ := Nat.le_max_left _ _
  le_reach hlog htaken := Nat.max_le.2 ⟨htaken, h.le_reach hlog (Nat.zero_le _)⟩
  carry hlog hroom := h.carry hlog (Nat.le_trans (Nat.le_max_right _ _) hroom)

theorem Carry.trans {onward : State → State → Prop} (h : Carry K reach room taken levels s u next)
    (k : ∀ v, K.Extends u v → Carry K reach room levels levels' u w (onward v)) :
    Carry K reach room taken levels' s w fun x => ∃ v, K.Extends u v ∧ next v ∧ onward v x := by
  have rest := k (K.extend u) (K.extends_extend u)
  -- Nothing is reported on either part of a way on which nothing is.
  have hu (hlog : w.log = s.log) : u.log = s.log :=
    (h.kept.eq_of_length_le (hlog ▸ rest.kept.length_le)).symm
  have hw (hlog : w.log = s.log) : w.log = u.log := hlog.trans (hu hlog).symm
  refine ⟨h.kept.trans rest.kept, fun hlog => ?_, fun hlog htaken => ?_, fun hlog hroom => ?_⟩
  · exact Nat.le_trans (h.taken_le (hu hlog)) (rest.taken_le (hw hlog))
  · exact rest.le_reach (hw hlog) (h.le_reach (hu hlog) htaken)
  · obtain ⟨v, hv, huv⟩ := h.carry (hu hlog) (Nat.le_trans (rest.taken_le (hw hlog)) hroom)
    obtain ⟨x, hx, hwx⟩ := (k v huv).carry (hw hlog) hroom
    exact ⟨x, ⟨v, huv, hv, hx⟩, hwx⟩

theorem Carry.append {onward : State → State → Prop} (h : Carry K reach room 0 levels s u next)
    (k : ∀ v, K.Extends u v → Carry K reach room 0 levels' u w (onward v)) :
    Carry K reach room 0 (max levels levels') s w fun x => ∃ v, K.Extends u v ∧ next v ∧
    onward v x :=
  h.trans fun v huv => (k v huv).behind

theorem Carry.from_advance (h : Carry K reach room taken levels s.advance u next) :
    Carry K reach room taken levels s u next := by
  obtain ⟨hkept, htaken, hreach, hcarry⟩ := h
  rw [State.log_advance] at hkept htaken hreach hcarry
  exact ⟨hkept, htaken, hreach, hcarry⟩

theorem Carry.to_advance (h : Carry K reach room taken levels s u next) (hu : u.after ≠ []) :
    Carry K reach room taken levels s u.advance fun y => ∃ x, K.Extends u x ∧ next x ∧
    y = x.advance :=
  h.trans fun v huv => .plain (Reaches.advance _).log ⟨v.advance, rfl, huv.advance hu⟩

end Carry

/-- Wherever the first reader succeeds at `s`, its value takes levels by `cost`, those in `taken`
included, and the second reader reads the same value at `t` if it has room for it. -/
def Carries (K : Sequel) (reach room taken : Nat) (cost : α → Nat) (p q : Parser α)
    (s t : State) : Prop :=
  ∀ a u, Reads p s a u → Carry K reach room taken (cost a) s u (Reads q t a)

section Combinators

variable {K : Sequel} {reach room taken : Nat} {cost : α → Nat} {cost' : β → Nat} {p q : Parser α}
    {s t : State}

theorem Carries.pure {a : α} (hcost : cost a = taken) (h : K.Extends s t) :
    Carries K reach room taken cost (pure a) (pure a) s t := by
  intro b u hread
  obtain ⟨rfl, rfl⟩ := reads_pure.1 hread
  rw [hcost]
  exact .plain List.prefix_rfl ⟨t, reads_pure.2 ⟨rfl, rfl⟩, h⟩

theorem Carries.fails (h : ∀ a u, ¬Reads p s a u) : Carries K reach room taken cost p q s t :=
  fun a u hread => absurd hread (h a u)

theorem Carries.unexpected {expected : Expectation} :
    Carries K reach room taken cost (unexpected expected) q s t :=
  .fails fun _ _ => reads_unexpected.1

theorem Carries.throw {d : Diagnostic} : Carries K reach room taken cost (throw d) q s t :=
  .fails fun _ _ => reads_throw.1

private theorem Carries.plain [Advances p]
    (h : ∀ a u, Reads p s a u → ∃ v, Reads q t a v ∧ K.Extends u v) :
    Carries K reach room 0 (fun _ => 0) p q s t :=
  fun a u hread => .plain (Advances.reads hread).log (h a u hread)

theorem Carries.ahead [Consumes p] (h : s.after ≠ [] → Carries K reach room taken cost p q s t) :
    Carries K reach room taken cost p q s t := by
  intro a u hread
  refine h (fun hnil => ?_) a u hread
  have hlt := Consumes.shorter hread
  rw [hnil] at hlt
  cases hlt

/-- What follows takes the levels of the first value as taken, and may use that it was read. -/
theorem Carries.bind_reads {f g : α → Parser β} (hp : Carries K reach room 0 cost p q s t)
    (hf : ∀ a u v, Reads p s a u → K.Extends u v →
    Carries K reach room (max taken (cost a)) cost' (f a) (g a) u v) :
    Carries K reach room taken cost' (p >>= f) (q >>= g) s t := by
  intro b w hread
  obtain ⟨a, u, ha, hb⟩ := reads_bind.1 hread
  refine ((hp a u ha).behind.trans fun v huv => hf a u v ha huv b w hb).imp
    fun x _ ⟨v, _, hv, hx⟩ => ?_
  exact reads_bind.2 ⟨a, v, hv, hx⟩

theorem Carries.bind {f g : α → Parser β} (hp : Carries K reach room 0 cost p q s t)
    (hf : ∀ a u v, K.Extends u v → Carries K reach room (max taken (cost a)) cost' (f a)
    (g a) u v) :
    Carries K reach room taken cost' (p >>= f) (q >>= g) s t :=
  hp.bind_reads fun a u v _ => hf a u v

theorem Carries.step_reads {f g : α → Parser β} (hp : Carries K reach room 0 (fun _ => 0) p q s t)
    (hf : ∀ a u v, Reads p s a u → K.Extends u v →
    Carries K reach room taken cost' (f a) (g a) u v) :
    Carries K reach room taken cost' (p >>= f) (q >>= g) s t :=
  hp.bind_reads fun a u v hread h => (Nat.max_zero taken).symm ▸ hf a u v hread h

theorem Carries.step {f g : α → Parser β} (hp : Carries K reach room 0 (fun _ => 0) p q s t)
    (hf : ∀ a u v, K.Extends u v → Carries K reach room taken cost' (f a) (g a) u v) :
    Carries K reach room taken cost' (p >>= f) (q >>= g) s t :=
  hp.step_reads fun a u v _ => hf a u v

theorem Carries.pure_bind {a : α} {f g : α → Parser β}
    (h : Carries K reach room taken cost' (f a) (g a) s t) :
    Carries K reach room taken cost' (Pure.pure a >>= f) (Pure.pure a >>= g) s t := h

theorem Carries.get_bind {f g : State → Parser β}
    (h : Carries K reach room taken cost' (f s) (g t) s t) :
    Carries K reach room taken cost' (get >>= f) (get >>= g) s t := h

theorem Carries.ask_bind {question : State → α} {f g : α → Parser β}
    (h : Carries K reach room taken cost' (f (question s)) (g (question t)) s t) :
    Carries K reach room taken cost' (ask question >>= f) (ask question >>= g) s t := h

theorem Carries.advance_bind {f g : Unit → Parser β}
    (h : Carries K reach room taken cost' (f ()) (g ()) s.advance t.advance) :
    Carries K reach room taken cost' (advance >>= f) (advance >>= g) s t :=
  fun b w hread =>
    (show Carry K reach room taken (cost' b) s.advance w _ from h b w hread).from_advance

theorem Carries.ite {c c' : Prop} [Decidable c] [Decidable c'] (hc : c' ↔ c) {p' q' : Parser α}
    (hp : c → Carries K reach room taken cost p q s t)
    (hq : ¬c → Carries K reach room taken cost p' q' s t) :
    Carries K reach room taken cost (if c then p else p') (if c' then q else q') s t := by
  by_cases h : c
  · rw [if_pos h, if_pos (hc.2 h)]
    exact hp h
  · rw [if_neg h, if_neg (fun h' => h (hc.1 h'))]
    exact hq h

end Combinators

section Basics

variable {K : Sequel} {reach room : Nat} {s t : State}

theorem carries_expect (l : Lexeme) (h : K.Extends s t) :
    Carries K reach room 0 (fun _ => 0) (expect l) (expect l) s t := by
  refine .plain fun a u hread => ?_
  obtain ⟨hs, rfl, rfl⟩ := reads_expect.1 hread
  have hne := State.ne_nil_of_sees hs
  exact ⟨t.advance, reads_expect.2 ⟨h.sees_of_sees hs, (h.currentSpan hne).symm, rfl⟩,
    h.advance hne⟩

theorem carries_accept {l : Lexeme} (hl : l.opensDeclaration = false) (h : K.Extends s t) :
    Carries K reach room 0 (fun _ => 0) (accept l) (accept l) s t := by
  refine .plain fun a u hread => ?_
  rcases reads_accept.1 hread with ⟨hs, rfl, rfl⟩ | ⟨hs, rfl, rfl⟩
  · exact ⟨t.advance, reads_accept.2 (.inl ⟨h.sees_of_sees hs, rfl, rfl⟩),
      h.advance (State.ne_nil_of_sees hs)⟩
  · exact ⟨t, reads_accept.2 (.inr ⟨by rwa [h.sees hl], rfl, rfl⟩), h⟩

theorem carries_name (expected : Expectation) (h : K.Extends s t) :
    Carries K reach room 0 (fun _ => 0) (name expected) (name expected) s t := by
  refine .plain fun a u hread => ?_
  obtain ⟨hs, hspan, rfl⟩ := reads_name.1 hread
  have hne := State.ne_nil_of_current? hs
  exact ⟨t.advance, reads_name.2 ⟨h.current? hs, hspan.trans (h.currentSpan hne).symm, rfl⟩,
    h.advance hne⟩

theorem carries_close (delimiter : Delimiter) (list : Bool) (opener : Span) (h : K.Extends s t) :
    Carries K reach room 0 (fun _ => 0) (close delimiter list opener)
      (close delimiter list opener) s t := by
  refine .plain fun a u hread => ?_
  obtain ⟨hs, rfl, rfl⟩ := reads_close.1 hread
  have hne := State.ne_nil_of_sees hs
  exact ⟨t.advance, reads_close.2 ⟨h.sees_of_sees hs, (h.currentSpan hne).symm, rfl⟩, h.advance hne⟩

theorem carries_operand (operator : Lexeme) (h : K.Extends s t) :
    Carries K reach room 0 (fun _ => 0) (operand operator) (operand operator) s t := by
  refine .plain fun a u hread => ?_
  obtain ⟨hs, rfl⟩ := reads_operand.1 hread
  exact ⟨t, reads_operand.2 ⟨by rwa [h.atExpressionStart], rfl⟩, h⟩

theorem carries_upToHere (start : Span) (h : K.Extends s t) :
    Carries K reach room 0 (fun _ => 0) (upToHere start) (upToHere start) s t := by
  refine .plain fun a u hread => ?_
  obtain ⟨rfl, rfl⟩ := reads_upToHere.1 hread
  exact ⟨t, reads_upToHere.2 ⟨by rw [h.previousSpan], rfl⟩, h⟩

theorem carries_rangeMark (hs : s.atRangeMark = true) (h : K.Extends s t) :
    Carries K reach room 0 (fun _ => 0) rangeMark rangeMark s t := by
  refine .plain fun a u hread => ?_
  obtain ⟨rfl, rfl⟩ := reads_rangeMark.1 hread
  exact ⟨t.advance, reads_rangeMark.2 ⟨(h.sees rfl).symm, rfl⟩,
    h.advance (State.ne_nil_of_atRangeMark hs)⟩

end Basics

section Loops

variable {K : Sequel} {reach room : Nat} {cost : α → Nat} {s t u : State}

private theorem Continues.carry {closer : Lexeme} {trailing : Bool} {item item' : Parser α}
    (hitem : ∀ {s t}, K.Extends s t → Carries K reach room 0 cost item item' s t)
    (hcloser : closer.opensDeclaration = false) {as : List α}
    (hrun : Continues closer trailing item s as u) (h : K.Extends s t) :
    Carry K reach room 0 (highest cost as) s u (Continues closer trailing item' t as) := by
  induction hrun generalizing t with
  | bare hs => exact .plain List.prefix_rfl ⟨t, .bare (by rwa [h.sees rfl]), h⟩
  | comma hs allowed hc =>
    have hadvance := h.advance (State.ne_nil_of_sees hs)
    refine .plain (Reaches.advance _).log
      ⟨t.advance, .comma (h.sees_of_sees hs) allowed ?_, hadvance⟩
    exact hadvance.sees_of_sees hc
  | @more s _ _ a as hs open_ ha rest ih =>
    have hadvance := h.advance (State.ne_nil_of_sees hs)
    rw [highest_cons]
    refine ((hitem hadvance a _ ha).append fun v huv => ih huv).from_advance.imp
      fun x _ ⟨v, _, hv, hx⟩ => ?_
    exact .more (h.sees_of_sees hs) (by rwa [hadvance.sees hcloser]) hv hx

theorem carries_delimited (delimiter : Delimiter) (trailing : Bool) (opener : Span)
    {item item' : Parser α} [Advances item] [Advances item']
    (hitem : ∀ {s t}, K.Extends s t → Carries K reach room 0 cost item item' s t)
    (h : K.Extends s t) :
    Carries K reach room 0 (fun r => highest cost r.1) (delimited delimiter trailing opener item)
      (delimited delimiter trailing opener item') s t := by
  have hcloser : delimiter.closer.opensDeclaration = false := by cases delimiter <;> rfl
  intro r u hread
  rcases reads_delimited.1 hread with ⟨hs, rfl, rfl⟩ | ⟨hs, a, s₁, as, s₂, ha, has, hc, rfl, rfl⟩
  · have hne := State.ne_nil_of_sees hs
    refine .plain (Reaches.advance _).log ⟨t.advance, reads_delimited.2 (.inl ?_), h.advance hne⟩
    exact ⟨h.sees_of_sees hs, by rw [h.currentSpan hne], rfl⟩
  · have hne := State.ne_nil_of_sees hc
    have hway := ((hitem h a _ ha).append fun v huv => has.carry hitem hcloser huv).to_advance hne
    refine hway.imp fun y _ ⟨x, hx, ⟨v, _, hv, hcontinues⟩, hy⟩ =>
      reads_delimited.2 (.inr ⟨?_, a, v, as, x, ?_⟩)
    · rwa [h.sees hcloser]
    · exact ⟨hv, hcontinues, hx.sees_of_sees hc, by rw [hx.currentSpan hne], hy⟩

theorem carries_collect {step : Parser (Option α)} [Advances step]
    (hshorter : ∀ {s t : State} {a : α}, Reads step s (some a) t → t.after.length < s.after.length)
    (hstep : ∀ {s t}, K.Extends s t → Carries K reach room 0 (fun _ => 0) step step s t)
    (first : List α) (h : K.Extends s t) : Carries K reach room 0 (fun _ => 0) (collect step first)
    (collect step first) s t := by
  have answers {as : List α} {s t u : State} (hrun : Collects step s as u) (h : K.Extends s t) :
      Carry K reach room 0 0 s u (Collects step t as) := by
    induction hrun generalizing t with
    | done ha => exact (hstep h none _ ha).imp fun v _ hv => .done hv
    | more ha _ ih =>
      exact ((hstep h (some _) _ ha).trans fun v huv => ih huv).imp fun x _ ⟨v, _, hv, hx⟩ =>
        .more hv hx
  intro as u hread
  obtain ⟨rest, rfl, hrest⟩ := (reads_collect hshorter).1 hread
  exact (answers hrest h).imp fun v _ hv => (reads_collect hshorter).2 ⟨rest, rfl, hv⟩

theorem carries_repeated {step step' : α → Parser (Option α)} (hproductive : Productive step)
    (hproductive' : Productive step') (hstep : ∀ a {s t}, K.Extends s t →
      Carries K reach room (cost a) (fun r => cost (r.getD a)) (step a) (step' a) s t)
    (a : α) (h : K.Extends s t) :
    Carries K reach room (cost a) cost (repeated step a) (repeated step' a) s t := by
  have rounds {a c : α} {s t u : State} (hrun : Rounds step a s c u) (h : K.Extends s t) :
      Carry K reach room (cost a) (cost c) s u (Rounds step' a t c) := by
    induction hrun generalizing t with
    | @done a _ _ ha => exact (hstep a h none _ ha).imp fun v _ hv => .done hv
    | @more a b _ _ _ _ ha _ ih =>
      exact ((hstep a h (some b) _ ha).trans fun v huv => ih huv).imp fun x _ ⟨v, _, hv, hx⟩ =>
        .more hv hx
  intro c u hread
  exact (rounds ((reads_repeated hproductive).1 hread) h).imp fun v _ hv =>
    (reads_repeated hproductive').2 hv

/-- Statements carry over one after another, whatever statements follow them. None of them fails,
since a failure is reported. -/
theorem Listed.carry {surroundings : Surroundings} {atEnd : State → Bool}
    {statement statement' : Parser α} [Advances statement] [Advances statement']
    (hstatement : ∀ {s t}, K.Extends s t → Carries K reach room 0 cost statement statement' s t)
    (hend : ∀ {s t}, K.Extends s t → ¬atEnd s → ¬atEnd t) {as : List α}
    (hrun : Listed surroundings atEnd statement s as u) (h : K.Extends s t) :
    Carry K reach room 0 (highest cost as) s u fun v => Reaches t v ∧ ∀ bs w,
      Listed surroundings atEnd statement' v bs w →
      Listed surroundings atEnd statement' t (as ++ bs) w := by
  induction hrun generalizing t with
  | done _ => exact .plain List.prefix_rfl ⟨t, ⟨.refl t, fun _ _ => id⟩, h⟩
  | @read s _ _ a as hs ha _ ih =>
    refine ((hstatement h a _ ha).append fun v huv => ih huv).imp fun x _ ⟨v, _, hv, hreach, hx⟩ =>
      ?_
    exact ⟨(Advances.reads hv).trans hreach, fun bs w hw => .read (hend h hs) hv (hx bs w hw)⟩
  | @resume s v u d as _ hd _ ih =>
    have hfailed : s.log <+: v.log := (Advances.fails hd).log
    have hrest : v.log ++ [d] <+: u.log := (ih (K.extends_extend _)).kept
    have hlog : u.log ≠ s.log := by
      intro hlog
      have hlength := hrest.length_le
      have hlength' := hfailed.length_le
      rw [hlog, List.length_append, List.length_singleton] at hlength
      omega
    exact ⟨hfailed.trans ((List.prefix_append _ _).trans hrest), fun h => absurd h hlog, fun h =>
      absurd h hlog, fun h => absurd h hlog⟩

end Loops

end ApiScript.Grammar
