import ApiScript.Proofs.Pairing.Block

set_option autoImplicit false
set_option relaxedAutoImplicit false

/-!
Declarations are read the same way in both runs, and so are statements, where none begins that is
fenced off.
-/

namespace ApiScript.Grammar

open Placed

section Declarations

variable {R : Regime} {b : Bool} {s t : State}

theorem agree_names (delimiter : Delimiter) {opener opener' : Span} (expected : Expectation)
    (hopener : R.Same opener opener') (h : Twins R b s t) :
    Agree R true (names delimiter opener expected) (names delimiter opener' expected) s t :=
  (agree_delimited delimiter false hopener (agree_name expected) h).bind
      fun (_, _) (_, _) _ _ hr h =>
    .pure (same_pair.1 hr).1 h

theorem agree_upToHere {start start' : Span} (hstart : R.Same start start') (h : Twins R true s t) :
    Agree R true (upToHere start) (upToHere start') s t := .ok (same_merge hstart h.previousSpan) h

private theorem agree_usePath (h : Twins R b s t) : Agree R true usePath usePath s t := by
  unfold usePath
  refine (agree_name _ h).bind fun n n' u v hn h => ?_
  refine agree_collect (fun s t h => .get_bind ?_) (same_cons_left.2 ⟨_, [], rfl, hn, rfl⟩) h
  refine .ite (by rw [h.sees, h.peek?]) (fun hscope => .advance_bind ?_) fun _ => .pure rfl h
  refine (agree_name _ (h.read (State.current?_of_sees hscope.1) (R.takes rfl))).bind
    fun n n' u v hn h => ?_
  exact .pure (congrArg some hn) h

private theorem agree_importedNames (h : Twins R b s t) :
    Agree R true importedNames importedNames s t := by
  unfold importedNames
  refine (agree_expect (R.takes rfl) h).bind fun opener opener' u v hopener h => .get_bind ?_
  exact .ite (by rw [h.sees]) (fun _ => agree_unexpected _ h) fun _ => agree_names _ _ hopener h

theorem same_names {ns ns' : List Name} :
    R.Same ns ns' ↔ ns.map (Name.respan R.left) = ns'.map (Name.respan R.right) :=
  Iff.rfl

private theorem agree_pathTarget (h : Twins R b s t) : Agree R true pathTarget pathTarget s t := by
  unfold pathTarget
  refine (agree_usePath h).bind fun path path' u v hpath h =>
    (agree_accept (R.takes rfl) h).bind fun r _ u v hr h => ?_
  cases hr
  rw [same_names] at hpath
  refine .ite Iff.rfl (fun _ => ?_) fun _ => .pure ?_ h
  · refine (agree_accept (R.takes rfl) h).bind fun r _ u v hr h => ?_
    cases hr
    refine .ite Iff.rfl (fun _ => .pure ?_ h) fun _ =>
      (agree_importedNames h).bind fun ns ns' u v hns h => .pure ?_ h
    · simp only [Regime.Same, respan, UseTarget.respan, hpath]
    · rw [same_names] at hns
      simp only [Regime.Same, respan, UseTarget.respan, hpath, hns]
  · simp only [Regime.Same, respan, UseTarget.respan, hpath]

variable {inner inner' : Inner} (hinner : Alike inner inner')
include hinner

private theorem agree_operation (hopen : R.fence.Open) (h : Twins R b s t) :
    Agree R true (operation inner) (operation inner') s t := by
  unfold operation
  dsimp only
  refine (agree_expect (fun _ => hopen) h).bind fun start start' u v hstart h => ?_
  refine (agree_name _ h).bind fun n n' u v hn h =>
    (agree_expect (R.takes rfl) h).bind fun _ _ u v _ h => ?_
  refine (agree_name _ h).bind fun protocol protocol' u v hprotocol h => ?_
  refine (agree_expect (R.takes rfl) h).bind fun _ _ u v _ h => ?_
  refine (agree_name _ h).bind fun method method' u v hmethod h => ?_
  refine (agree_string hinner _ h).bind fun target target' u v htarget h => .get_bind ?_
  have finish {query query' : Option StringLiteral} {u v : State} (hquery : R.Same query query')
      (h : Twins R true u v) : Agree R true
        (optionalObject inner >>= fun metadata => upToHere start >>= fun span =>
          pure (Decl.operation span n protocol method target query metadata))
        (optionalObject inner' >>= fun metadata => upToHere start' >>= fun span =>
          pure (Decl.operation span n' protocol' method' target' query' metadata)) u v := by
    refine (agree_optionalObject hinner h).bind fun metadata metadata' u v hmetadata h => ?_
    refine (agree_upToHere hstart h).bind fun span span' u v hspan h => .pure ?_ h
    simp only [Regime.Same, respan, Decl.respan_operation]
      at hn hprotocol hmethod htarget hquery hmetadata hspan ⊢
    simp only [hn, hprotocol, hmethod, htarget, hquery, hmetadata, hspan]
  refine .ite (by rw [h.atString]) (fun _ => ?_) fun _ => finish rfl h
  exact (agree_string hinner _ h).bind fun query query' u v hquery h =>
    finish (congrArg some hquery) h

private theorem agree_profile (hopen : R.fence.Open) (h : Twins R b s t) :
    Agree R true (profile inner) (profile inner') s t := by
  unfold profile
  refine (agree_expect (fun _ => hopen) h).bind fun start start' u v hstart h => ?_
  refine (agree_name _ h).bind fun n n' u v hn h => ?_
  refine (agree_object hinner false h).bind fun o o' u v ho h => .pure ?_ h
  have hspan := same_merge hstart (same_object_span ho)
  simp only [Regime.Same, respan, Decl.respan] at hn ho hspan ⊢
  simp only [hn, ho, hspan]

private theorem agree_functionBody (h : Twins R b s t) :
    Agree R true (functionBody inner) (functionBody inner') s t := by
  unfold functionBody
  refine (agree_accept (R.takes rfl) h).bind fun r _ u v hr h => ?_
  cases hr
  refine .ite Iff.rfl (fun _ => ?_) fun _ =>
    .get_bind (.ite (by rw [h.sees]) (fun _ => ?_) fun _ => agree_unexpected _ h)
  · refine (hinner.expression h).bind fun e e' u v he h => .pure ?_ h
    simp only [Regime.Same, respan, Body.respan] at he ⊢
    rw [he]
  · refine (hinner.block h).bind fun body body' u v hbody h => .pure ?_ h
    simp only [Regime.Same, respan, Body.respan] at hbody ⊢
    rw [hbody]

private theorem agree_function (hopen : R.fence.Open) (h : Twins R b s t) :
    Agree R true (function inner) (function inner') s t := by
  unfold function
  refine (agree_expect (fun _ => hopen) h).bind fun start start' u v hstart h => ?_
  refine (agree_name _ h).bind fun n n' u v hn h =>
    (agree_expect (R.takes rfl) h).bind fun opener opener' u v hopener h => ?_
  refine (agree_names _ _ hopener h).bind fun params params' u v hparams h => ?_
  refine (agree_functionBody hinner h).bind fun body body' u v hbody h => ?_
  refine (agree_upToHere hstart h).bind fun span span' u v hspan h => .pure ?_ h
  rw [same_names] at hparams
  simp only [Regime.Same, respan, Decl.respan] at hn hbody hspan ⊢
  simp only [hn, hparams, hbody, hspan]

private theorem agree_binding (hopen : R.fence.Open) (h : Twins R b s t) :
    Agree R true (binding inner) (binding inner') s t := by
  unfold binding
  refine (agree_expect (fun _ => hopen) h).bind fun start start' u v hstart h => ?_
  refine (hinner.pattern h).bind fun p p' u v hp h =>
    (agree_expect (R.takes rfl) h).bind fun _ _ u v _ h => ?_
  refine (hinner.expression h).bind fun value value' u v hvalue h => .pure ?_ h
  have hspan := same_merge hstart (same_expr_span hvalue)
  simp only [Regime.Same, respan, Decl.respan] at hp hvalue hspan ⊢
  simp only [hp, hvalue, hspan]

private theorem agree_use (hopen : R.fence.Open) (h : Twins R b s t) :
    Agree R true (use inner) (use inner') s t := by
  unfold use
  dsimp only
  refine (agree_expect (fun _ => hopen) h).bind fun start start' u v hstart h => .get_bind ?_
  have finish {target target' : UseTarget} {u v : State} (htarget : R.Same target target')
    (h : Twins R true u v) :
      Agree R true
        (get >>= fun s => if s.sees (.symbol .leftBrace) = true then do
            let body ← inner .block
            let span ← upToHere start
            pure (Decl.use span target (some body))
          else do
            let span ← upToHere start
            pure (Decl.use span target none))
        (get >>= fun s => if s.sees (.symbol .leftBrace) = true then do
            let body ← inner' .block
            let span ← upToHere start'
            pure (Decl.use span target' (some body))
          else do
            let span ← upToHere start'
            pure (Decl.use span target' none)) u v := by
    refine .get_bind (.ite (by rw [h.sees]) (fun _ => ?_) fun _ => ?_)
    · refine (hinner.block h).bind fun body body' u v hbody h => ?_
      refine (agree_upToHere hstart h).bind fun span span' u v hspan h => .pure ?_ h
      simp only [Regime.Same, respan, Decl.respan_use] at htarget hbody hspan ⊢
      simp only [htarget, hbody, hspan, Option.map_some]
    · refine (agree_upToHere hstart h).bind fun span span' u v hspan h => .pure ?_ h
      simp only [Regime.Same, respan, Decl.respan_use] at htarget hspan ⊢
      simp only [htarget, hspan, Option.map_none]
  refine .ite (by rw [h.atIdentifier, h.peek?]) (fun _ => ?_) fun _ => ?_
  · exact (agree_pathTarget h).bind fun target target' u v htarget h => finish htarget h
  · refine (hinner.expression h).bind fun e e' u v he h => finish ?_ h
    simp only [Regime.Same, respan, UseTarget.respan] at he ⊢
    rw [he]

theorem agree_declaration?_bind {α : Type} [Placed α] {k k' : Option Decl → Parser α}
    (hs : R.fence.Heads s) (h : Twins R b s t)
    (hsome : ∀ {d d' : Decl} {u v : State}, R.Same d d' → Twins R true u v →
    Agree R true (k (some d)) (k' (some d')) u v) (hnone : Agree R true (k none) (k' none) s t) :
    Agree R true (declaration? inner >>= k) (declaration? inner' >>= k') s t := by
  have read {p q : Parser Decl} (hp : Agree R true p q s t) :
      Agree R true ((p >>= fun d => pure (some d)) >>= k)
        ((q >>= fun d => pure (some d)) >>= k') s t := by
    simp only [bind_assoc, pure_bind]
    exact hp.bind fun d d' u v hd h => hsome hd h
  unfold declaration?
  rw [bind_assoc, bind_assoc]
  refine .get_bind ?_
  rw [← h.current?]
  split
  · exact read (agree_operation hinner (hs _ ‹_› rfl) h)
  · exact read (agree_profile hinner (hs _ ‹_› rfl) h)
  · exact read (agree_function hinner (hs _ ‹_› rfl) h)
  · exact read (agree_binding hinner (hs _ ‹_› rfl) h)
  · exact read (agree_use hinner (hs _ ‹_› rfl) h)
  · exact .pure_bind hnone

theorem agree_item (hs : R.fence.Heads s) (h : Twins R b s t) :
    Agree R true (item inner) (item inner') s t := by
  unfold item
  refine agree_declaration?_bind hinner hs h (fun hd h => .pure ?_ h) ?_
  · simp only [Regime.Same, respan, Item.respan] at hd ⊢
    rw [hd]
  · refine (hinner.expression h).bind fun e e' u v he h => .pure ?_ h
    simp only [Regime.Same, respan, Item.respan] at he ⊢
    rw [he]

variable [∀ e, Advances (inner e)]

theorem agree_items (hopen : R.fence.Open) (h : Twins R false s t) :
    Agree R false (statements .script State.atEnd (item inner))
      (statements .script State.atEnd (item inner')) s t :=
  agree_statements (P := fun _ => True) (fun h => h.atEnd) (fun _ _ _ _ _ _ => hopen)
    (fun _ _ _ => trivial)
    (fun _ _ _ _ => trivial) (fun hs h => agree_item hinner hs h) trivial h

theorem agree_itemBlock [∀ e, Keeps (inner e)] (h : Twins R b s t) : Agree R true (itemBlock inner)
    (itemBlock inner') s t :=
  agree_block (agree_item hinner) h

end Declarations

end ApiScript.Grammar
