import ApiScript.Proofs.Pairing.Declaration

set_option autoImplicit false
set_option relaxedAutoImplicit false

/-!
Runs are read the same way in both runs of the grammar.
-/

namespace ApiScript.Grammar

open Placed

section Runs

variable {R : Regime} {b : Bool} {s t : State} {inner inner' : Inner}

private theorem agree_variations? (hinner : Alike inner inner') (h : Twins R b s t) :
    Agree R b (variations? inner) (variations? inner') s t := by
  unfold variations?
  refine .get_bind ((agree_accept (R.takes rfl) h).bind fun r _ u v hr huv => ?_)
  cases hr
  refine .ite Iff.rfl (fun _ => ?_) fun _ => .pure rfl huv
  refine (agree_accept (R.takes rfl) huv).bind fun zip _ u v hzip huv => ?_
  cases hzip
  refine (agree_object hinner false huv).bind fun axes axes' u v haxes huv =>
    .pure ?_ (huv.weaken fun _ => rfl)
  have hspan := same_merge h.currentSpan (same_object_span haxes)
  simp only [Regime.Same, respan] at haxes hspan ⊢
  simp only [haxes, hspan, Option.map_some, Variations.respan]

private theorem agree_inlineRun (hinner : Alike inner inner') {start start' : Span}
    (hstart : R.Same start start') (h : Twins R b s t) : Agree R true (inlineRun inner start)
    (inlineRun inner' start') s t := by
  unfold inlineRun
  refine (agree_name _ h).bind fun target target' u v htarget h => ?_
  refine (agree_optionalObject hinner h).bind fun args args' u v hargs h => ?_
  refine (agree_variations? hinner h).bind fun variations variations' u v hvariations h => ?_
  refine (agree_upToHere hstart h).bind fun span span' u v hspan h => .pure ?_ h
  simp only [Regime.Same, respan, Run.respan_inline] at htarget hargs hvariations hspan ⊢
  simp only [htarget, hargs, hvariations, hspan]

private theorem agree_stepName (hs : R.fence.Heads s) (hstep : s.atStepStart = true)
    (h : Twins R b s t) :
    Agree R true stepName stepName s t := by
  have hafter : s.after ≠ [] := by
    intro hnil
    simp [State.atStepStart, hnil, State.startsStep] at hstep
  unfold stepName
  refine .get_bind (.advance_bind (.pure ?_ (h.advance hs hafter)))
  have hspan := h.currentSpan
  simp only [Regime.Same, respan, Name.respan] at hspan ⊢
  rw [hspan, h.current?]

private theorem agree_step (hinner : Alike inner inner') (hs : R.fence.Heads s)
    (hstep : s.atStepStart = true) (h : Twins R b s t) :
    Agree R true (step inner) (step inner') s t := by
  unfold step
  dsimp only
  refine (agree_stepName hs hstep h).bind fun n n' u v hn h =>
    (agree_expect (R.takes rfl) h).bind fun _ _ u v _ h => ?_
  refine (agree_name _ h).bind fun operation operation' u v hoperation h => .get_bind ?_
  have finish {args args' : Option Object} {u v : State} (hargs : R.Same args args')
    (h : Twins R true u v) :
      Agree R true (upToHere n.span >>= fun span => pure (RunItem.step span n operation args))
        (upToHere n'.span >>= fun span => pure (RunItem.step span n' operation' args')) u v := by
    refine (agree_upToHere (same_name_span hn) h).bind fun span span' u v hspan h => .pure ?_ h
    simp only [Regime.Same, respan, RunItem.respan_step] at hn hoperation hargs hspan ⊢
    simp only [hn, hoperation, hargs, hspan]
  refine .ite (by rw [h.sees]) (fun _ => ?_) fun _ => finish rfl h
  exact (agree_object hinner false h).bind fun o o' u v ho h => finish (congrArg some ho) h

private theorem agree_path (h : Twins R b s t) : Agree R true path path s t := by
  unfold path
  refine (agree_expect (R.takes rfl) h).bind fun start start' u v hstart h => ?_
  refine (agree_expect (R.takes rfl) h).bind fun _ _ u v _ h =>
    (agree_name _ h).bind fun n n' u v hn h => ?_
  refine Agree.bind (b := true)
    (agree_collect (fun s t h => ?_) (same_cons_left.2 ⟨_, [], rfl, hn, rfl⟩) h)
    fun chain chain' u v hchain h => (agree_upToHere hstart h).bind fun span span' u v hspan h =>
    .pure ?_ h
  · refine (agree_accept (R.takes rfl) h).bind fun r _ u v hr h => ?_
    cases hr
    refine .ite Iff.rfl (fun _ => ?_) fun _ => .pure rfl h
    exact (agree_name _ h).bind fun n n' u v hn h => .pure (congrArg some hn) h
  · rw [same_names] at hchain
    simp only [Regime.Same, respan, RunItem.respan] at hspan ⊢
    simp only [hchain, hspan]

private theorem agree_runItem (hinner : Alike inner inner') (hs : R.fence.Heads s)
    (h : Twins R b s t) :
    Agree R true (runItem inner) (runItem inner') s t := by
  unfold runItem
  refine .get_bind (.ite (by rw [h.atPathStart]) (fun _ => agree_path h) fun _ => ?_)
  refine .ite (by rw [h.atStepStart]) (fun hstep => agree_step hinner hs hstep h) fun _ => ?_
  refine agree_declaration?_bind hinner hs h (fun hd h => .pure ?_ h) (agree_unexpected _ h)
  simp only [Regime.Same, respan, RunItem.respan] at hd ⊢
  rw [hd]

variable [∀ e, Advances (inner e)] [∀ e, Keeps (inner e)]

private theorem agree_runBlock (hinner : Alike inner inner') {start start' : Span}
    (hstart : R.Same start start') (h : Twins R b s t) : Agree R true (runBlock inner start)
    (runBlock inner' start') s t := by
  unfold runBlock
  refine agree_braces (by decide) (agree_runItem hinner) (fun hopener hitems h => ?_) h
  refine (agree_close .brace false hopener h).bind fun closer closer' u v hcloser h => .pure ?_ h
  have hspan := same_merge hstart hcloser
  simp only [Regime.Same, respan, Run.respan, RunItem.respanAll_eq_map] at hitems hspan ⊢
  simp only [hitems, hspan]

theorem agree_run (hinner : Alike inner inner') (h : Twins R b s t) :
    Agree R true (run inner) (run inner') s t := by
  unfold run
  refine (agree_expect (R.takes rfl) h).bind fun start start' u v hstart h => .get_bind ?_
  exact .ite (by rw [h.sees]) (fun _ => agree_runBlock hinner hstart h) fun _ =>
    agree_inlineRun hinner hstart h

end Runs

end ApiScript.Grammar
