import ApiScript.Proofs.Pairing.Literal
import ApiScript.Proofs.Recovery.Readers

set_option autoImplicit false
set_option relaxedAutoImplicit false

/-!
Patterns are read the same way in both runs. What is wrong inside of a bracketed pattern is told of
the whole in both.
-/

namespace ApiScript.Grammar

open Placed

section Spans

variable {R : Regime}

theorem same_merge {a a' b b' : Span} (ha : R.Same a a') (hb : R.Same b b') :
    R.Same (a.merge b) (a'.merge b') :=
  R.merge ha hb

theorem same_pair {α β : Type} [Placed α] [Placed β] {a a' : α} {b b' : β} :
    R.Same (a, b) (a', b') ↔ R.Same a a' ∧ R.Same b b' := by
  simp only [Regime.Same, respan, Prod.mk.injEq]

theorem same_literal_span {l l' : Literal} (h : R.Same l l') : R.Same l.span l'.span := by
  have hspan := congrArg Literal.span h
  simpa only [Regime.Same, respan, Literal.span_respan] using hspan

theorem same_pattern_span {p p' : Pattern} (h : R.Same p p') : R.Same p.span p'.span := by
  have hspan := congrArg Pattern.span h
  simpa only [Regime.Same, respan, Pattern.span_respan] using hspan

theorem same_name_span {n n' : Name} (h : R.Same n n') : R.Same n.span n'.span :=
  congrArg Name.span h

end Spans

section Patterns

variable {α : Type} [Placed α] {R : Regime} {b : Bool} {s t : State}

private theorem Problem.message_respan (f : Span → Span) (p : Problem) :
    (p.respan f).message = p.message := by
  cases p <;> rfl

private theorem Regime.Reports.widen {d d' : Diagnostic} {opener opener' : Span}
    (h : R.Reports d d') (hopener : R.Same opener opener') :
    R.Reports (d.widen opener) (d'.widen opener') where
  same := by
    obtain ⟨problem, span⟩ := d
    obtain ⟨problem', span'⟩ := d'
    obtain ⟨hproblem, hspan⟩ := Diagnostic.mk.inj h.same
    have hwhole : R.left (opener.merge span) = R.right (opener'.merge span') :=
      R.merge hopener hspan
    have hmessage := congrArg Problem.message hproblem
    rw [Problem.message_respan, Problem.message_respan] at hmessage
    cases problem <;> cases problem' <;> simp only [Problem.respan, reduceCtorEq] at hproblem <;>
      simp_all only [Regime.Same, respan, Diagnostic.respan, Diagnostic.widen, Diagnostic.message,
      Problem.respan]
  bound := by
    have hle : (opener.merge d.span).start ≤ R.fence.bound :=
      Nat.le_trans (Nat.min_le_right _ _) h.bound
    unfold Diagnostic.widen
    split
    · exact h.bound
    · exact h.bound
    · exact hle
    · exact hle

theorem agree_rangeMark (hmark : s.atRangeMark = true) (h : Twins R b s t) :
    Agree R true rangeMark rangeMark s t := by
  unfold rangeMark
  refine .get_bind (.advance_bind (.pure (h.sees _) ?_))
  simp only [State.atRangeMark, Bool.or_eq_true] at hmark
  rcases hmark with hmark | hmark
  · exact h.read (State.current?_of_sees hmark) (R.takes rfl)
  · exact h.read (State.current?_of_sees hmark) (R.takes rfl)

private theorem agree_bracketed {delimiter : Delimiter} {opener opener' : Span} {l : Lexeme}
    {item item' : Parser α} (hl : s.current? = some l) (htakes : R.Takes l)
    (hopener : R.Same opener opener')
    (hitem : ∀ {b : Bool} {s t : State}, Twins R b s t → Agree R true item item' s t)
    (h : Twins R b s t) :
    Agree R true (bracketed delimiter opener item) (bracketed delimiter opener' item') s t := by
  unfold bracketed
  refine .advance_bind
    ((agree_delimited delimiter true hopener hitem (h.read hl htakes)).outcome_bind ?_ ?_)
  · exact fun r r' u v _ hr h => .pure hr h
  · exact fun d d' u v _ hd h => .throw (hd.widen hopener) h

variable {inner inner' : Inner} (hinner : Alike inner inner')
include hinner

private theorem agree_fieldPattern (h : Twins R b s t) :
    Agree R true (fieldPattern inner) (fieldPattern inner') s t := by
  unfold fieldPattern
  refine (agree_name _ h).bind fun key key' u v hkey h =>
    (agree_accept (R.takes rfl) h).bind fun r _ u v hr h => ?_
  cases hr
  refine .ite Iff.rfl (fun _ => (hinner.pattern h).bind fun p p' u v hp h => .pure ?_ h) fun _ =>
    .pure ?_ h
  · have hspan := same_merge (same_name_span hkey) (same_pattern_span hp)
    simp only [Regime.Same, respan, FieldPattern.respan_mk] at hkey hp hspan ⊢
    simp only [hkey, hp, hspan, Option.map_some]
  · have hspan := same_name_span hkey
    simp only [Regime.Same, respan, FieldPattern.respan_mk] at hkey hspan ⊢
    simp only [hkey, hspan, Option.map_none]

private theorem agree_literalPattern (h : Twins R b s t) :
    Agree R true (literalPattern inner) (literalPattern inner') s t := by
  unfold literalPattern
  refine .get_bind ((agree_literal hinner h).bind fun l l' u v hl huv => .get_bind ?_)
  refine .ite (by rw [huv.atRangeMark]) (fun hmark => ?_) fun _ =>
    .pure (congrArg Pattern.literal hl) huv
  refine (agree_rangeMark hmark huv).bind fun inclusive _ u v hinclusive huv => .get_bind ?_
  cases hinclusive
  have finish {stop stop' : Option Literal} {u v : State} (hstop : R.Same stop stop')
    (huv : Twins R true u v) :
      Agree R true
        (get >>= fun w =>
          pure (Pattern.range (s.currentSpan.merge w.previousSpan) (some l) stop inclusive))
        (get >>= fun w =>
            pure (Pattern.range (t.currentSpan.merge w.previousSpan) (some l') stop' inclusive)) u
                v := by
    refine .get_bind (.pure ?_ huv)
    have hspan := same_merge h.currentSpan huv.previousSpan
    simp only [Regime.Same, respan, Pattern.respan_range] at hl hstop hspan ⊢
    simp only [hl, hstop, hspan, Option.map_some]
  refine .ite (by rw [huv.atLiteral]) (fun _ => ?_) fun _ => finish rfl huv
  exact (agree_literal hinner huv).bind fun stop stop' u v hstop huv =>
    finish (congrArg some hstop) huv

private theorem agree_openRangePattern (hmark : s.atRangeMark = true) (h : Twins R b s t) :
    Agree R true (openRangePattern inner) (openRangePattern inner') s t := by
  unfold openRangePattern
  refine .get_bind ((agree_rangeMark hmark h).bind fun inclusive _ u v hinclusive huv =>
    .get_bind ?_)
  cases hinclusive
  refine .ite (by rw [huv.atLiteral]) (fun _ => ?_) fun _ => ?_
  · refine (agree_literal hinner huv).bind fun stop stop' u v hstop h' => .pure ?_ h'
    have hspan := same_merge h.currentSpan (same_literal_span hstop)
    simp only [Regime.Same, respan, Pattern.respan_range] at hstop hspan ⊢
    simp only [hstop, hspan, Option.map_some, Option.map_none]
  · refine .throw ⟨?_, Nat.le_trans (Nat.min_le_left _ _) h.fence.start_le⟩ huv
    have hspan := same_merge h.currentSpan huv.currentSpan
    simp only [Regime.Same, respan, Diagnostic.respan] at hspan ⊢
    simp only [hspan, Problem.noRangeEnd, Problem.respan]

theorem agree_pattern (h : Twins R b s t) : Agree R true (pattern inner) (pattern inner') s t := by
  unfold pattern
  refine .get_bind ?_
  dsimp only
  have hspan := h.currentSpan
  rw [← h.current?]
  split
  · refine agree_token ?_ ‹_› (R.takes rfl) h
    simp only [Regime.Same, respan] at hspan ⊢
    split <;> simp only [Pattern.respan, Name.respan, hspan]
  · exact agree_openRangePattern hinner (atRangeMark_of_current? (.inl ‹_›)) h
  · exact agree_openRangePattern hinner (atRangeMark_of_current? (.inr ‹_›)) h
  · refine (agree_bracketed ‹_› (R.takes rfl) hspan hinner.pattern h).bind
      fun ⟨elements, closer⟩ ⟨elements', closer'⟩ u v hr h => ?_
    obtain ⟨helements, hcloser⟩ := same_pair.1 hr
    refine .pure ?_ h
    have hwhole := same_merge hspan hcloser
    simp only [Regime.Same, respan, Pattern.respan, Pattern.respanAll_eq_map] at helements hwhole ⊢
    simp only [helements, hwhole]
  · refine (agree_bracketed ‹_› (R.takes rfl) hspan (agree_fieldPattern hinner) h).bind
      fun ⟨fields, closer⟩ ⟨fields', closer'⟩ u v hr h => ?_
    obtain ⟨hfields, hcloser⟩ := same_pair.1 hr
    refine .pure ?_ h
    have hwhole := same_merge hspan hcloser
    simp only [Regime.Same, respan, Pattern.respan,
      FieldPattern.respanAll_eq_map] at hfields hwhole ⊢
    simp only [hfields, hwhole]
  · refine .ite (by rw [h.atLiteral]) (fun _ => agree_literalPattern hinner h) fun _ =>
      .throw (h.here _ _ rfl) h

end Patterns

end ApiScript.Grammar
