import ApiScript.Proofs.Pairing.Decoding

set_option autoImplicit false
set_option relaxedAutoImplicit false

/-!
Literals are read the same way in both runs, the code embedded in strings included.
-/

namespace ApiScript.Grammar

open Placed

/-- The parsers of the nodes one level deeper do the same wherever the same is ahead. -/
structure Alike (inner inner' : Inner) : Prop where
  expression {R : Regime} {b : Bool} {s t : State} (h : Twins R b s t) :
    Agree R true (inner .expression) (inner' .expression) s t
  operand {R : Regime} {b : Bool} {s t : State} (h : Twins R b s t) :
    Agree R true (inner .operand) (inner' .operand) s t
  alternative {R : Regime} {b : Bool} {s t : State} (h : Twins R b s t) :
    Agree R true (inner .alternative) (inner' .alternative) s t
  block {R : Regime} {b : Bool} {s t : State} (h : Twins R b s t) :
    Agree R true (inner .block) (inner' .block) s t
  pattern {R : Regime} {b : Bool} {s t : State} (h : Twins R b s t) :
    Agree R true (inner .pattern) (inner' .pattern) s t

section Literals

variable {α β : Type} [Placed β] {R : Regime} {b c : Bool} {s t : State}

private theorem Regime.Faults.reports {e e' : LexicalError} (h : R.Faults e e') :
    R.Reports (.ofLexical e) (.ofLexical e') where
  same := by
    have hspan : R.left e.span = R.right e'.span := h.same
    simp only [Regime.Same, respan, Diagnostic.respan, Diagnostic.ofLexical, Problem.respan,
      h.fault, hspan]
  bound := h.bound

private theorem agree_decoded_bind {same : α → α → Prop} {r r' : Except LexicalError α}
    {k k' : α → Parser β} (hr : R.Answers same r r') (h : Twins R b s t)
    (hk : ∀ a a', same a a' → Agree R c (k a) (k' a') s t) :
    Agree R c (decoded r >>= k) (decoded r' >>= k') s t := by
  cases hr with
  | ok ha => exact hk _ _ ha
  | error he => exact .throw he.reports h

private theorem agree_report_bind {k k' : Unit → Parser β} {ds ds' : List Diagnostic}
    (hds : R.Same ds ds') (hbound : ∀ d ∈ ds, d.span.start ≤ R.fence.bound) (h : Twins R b s t)
    (hk : ∀ {u v}, Twins R b u v → Agree R c (k ()) (k' ()) u v) :
    Agree R c (modify (·.report ds) >>= k) (modify (·.report ds') >>= k') s t :=
  hk (h.report hds hbound)

variable {inner inner' : Inner} (hinner : Alike inner inner')
include hinner

theorem agree_wholeExpression (h : Twins R b s t) :
    Agree R true (wholeExpression inner) (wholeExpression inner') s t := by
  unfold wholeExpression
  refine .get_bind (.ite (by rw [h.broken]) (fun _ => agree_unexpected _ h) fun _ => ?_)
  refine (hinner.expression h).bind fun e e' u v he h =>
    .get_bind (.ite (by rw [h.atEnd]) (fun _ => ?_) fun _ => ?_)
  · exact .pure he h
  · exact agree_unexpected _ h

private theorem agree_embedded {source : String} {offset offset' : Nat}
    (hcode : R.Codes source offset offset') (h : Twins R b s t) :
    Agree R b (embedded inner source offset) (embedded inner' source offset') s t := by
  have hstart := hcode.twins
  have logs {b : Bool} {u v : State} (h : Twins R.inside b u v) :
      R.Same u.log v.log ∧ ∀ d ∈ u.log, d.span.start ≤ R.fence.bound := by
    obtain ⟨ds, ds', hu, hv, hsame, hbound⟩ := h.log
    rw [hu, hv, List.nil_append, List.nil_append]
    exact ⟨hsame, hbound⟩
  unfold embedded
  dsimp only
  refine .ite (by rw [hstart.atEnd, hstart.broken]) (fun _ => ?_) fun _ => ?_
  · refine agree_report_bind (logs hstart).1 (logs hstart).2 h fun h => .throw ⟨?_, ?_⟩ h
    · have hbraces : R.left _ = R.right _ := hcode.braces (source.utf8ByteSize + 1)
      simp only [Regime.Same, respan, Diagnostic.respan, Problem.respan, State.ofString,
        Nat.add_assoc, hbraces]
    · have hle := hcode.le
      dsimp only
      omega
  · have hrun := agree_wholeExpression hinner hstart
    unfold Agree at hrun
    unfold EStateM.run
    generalize wholeExpression inner (State.ofString source offset) = r at hrun ⊢
    generalize wholeExpression inner' (State.ofString source offset') = r' at hrun ⊢
    cases hrun with
    | ok he hst => exact agree_report_bind (logs hst).1 (logs hst).2 h fun h => .pure he h
    | error hd hst =>
      exact agree_report_bind (logs hst).1 (logs hst).2 h fun h => .throw ⟨hd.same, hd.bound⟩ h

private theorem agree_stringParts {segments segments' : List Quoted.Segment}
    (hsegments : List.Forall₂ R.Segments segments segments') (h : Twins R b s t) :
    Agree R b (stringParts inner segments) (stringParts inner' segments') s t := by
  induction hsegments generalizing s t with
  | nil => exact .pure rfl h
  | cons hsegment _ ih =>
    cases hsegment with
    | text text =>
      exact (ih h).bind fun parts parts' u v hparts h =>
        .pure (same_cons_left.2 ⟨_, _, rfl, rfl, hparts⟩) h
    | code hcode =>
      refine (agree_embedded hinner hcode h).bind fun e e' u v he h =>
        (ih h).bind fun parts parts' u v hparts h => ?_
      exact .pure (same_cons_left.2 ⟨_, _, rfl, congrArg StringPart.code he, hparts⟩) h

theorem agree_string (expected : Expectation) (h : Twins R b s t) :
    Agree R true (string inner expected) (string inner' expected) s t := by
  unfold string
  refine .get_bind ?_
  dsimp only
  have hspan : R.left s.currentSpan = R.right t.currentSpan := h.currentSpan
  rw [← h.current?]
  split
  · rename_i raw hs
    refine agree_decoded_bind (answers_split h.currentSpan (h.string_le hs)) h
      fun segments segments' hsegments => ?_
    refine (agree_stringParts hinner hsegments h).bind_reads
      fun parts parts' u v hreads _ hparts huv => ?_
    refine .advance_bind
      (.pure ?_ (huv.read ((stringParts_moves hreads).current?.trans hs) (R.takes rfl)))
    simpa only [Regime.Same, respan, StringLiteral.respan, StringPart.respanAll_eq_map, hspan,
      StringLiteral.mk.injEq, and_true, true_and] using hparts
  · rename_i raw hs
    refine agree_decoded_bind (answers_decodeSimple h.currentSpan (h.string_le hs)) h
      fun text _ htext => ?_
    subst htext
    refine .advance_bind (.pure ?_ (h.read hs (R.takes rfl)))
    simp only [Regime.Same, respan, StringLiteral.respan, hspan]
    split <;> rfl
  · exact agree_unexpected _ h

omit hinner in
theorem agree_token {a a' : β} {l : Lexeme} (ha : R.Same a a') (hs : s.current? = some l)
    (hl : R.Takes l) (h : Twins R b s t) :
    Agree R true (advance >>= fun _ => pure a) (advance >>= fun _ => pure a') s t :=
  .advance_bind (.pure ha (h.read hs hl))

omit hinner in
private theorem agree_decoded_token {r r' : Except LexicalError α} {make make' : α → β} {l : Lexeme}
    (hr : R.Answers Eq r r') (hmake : ∀ a, R.Same (make a) (make' a)) (hs : s.current? = some l)
    (hl : R.Takes l) (h : Twins R b s t) :
    Agree R true (decoded r >>= fun a => advance >>= fun _ => pure (make a))
      (decoded r' >>= fun a => advance >>= fun _ => pure (make' a)) s t :=
  agree_decoded_bind hr h fun a _ ha => ha ▸ agree_token (hmake a) hs hl h

omit hinner in
private theorem agree_skip {d : Prop} [Decidable d] {k k' : State → Parser β}
    (hread : d → Twins R true s.advance t.advance) (h : Twins R b s t)
    (hk : ∀ {u v : State}, Twins R false u v → Agree R true (k u) (k' v) u v) :
    Agree R true (if d then advance >>= fun _ => get >>= k else get >>= k)
      (if d then advance >>= fun _ => get >>= k' else get >>= k') s t :=
  .ite Iff.rfl (fun hd => .advance_bind (.get_bind (hk ((hread hd).weaken nofun)))) fun _ =>
    .get_bind (hk (h.weaken nofun))

theorem agree_literal (h : Twins R b s t) : Agree R true (literal inner) (literal inner') s t := by
  unfold literal
  refine .get_bind ?_
  dsimp only
  rw [← h.atNegativeNumber]
  generalize (if s.atNegativeNumber = true then "-" else "") = sign
  refine agree_skip (fun hsign => ?_) h fun {u v} huv => ?_
  · obtain ⟨minus, number, rest, hafter, hminus, _⟩ := State.atNegativeNumber_iff.1 hsign
    exact h.read (l := .symbol .minus) (by rw [Fence.current?_of_after hafter, hminus])
      (R.takes rfl)
  · have hspan :
        R.left (s.currentSpan.merge u.currentSpan) = R.right (t.currentSpan.merge v.currentSpan) :=
      R.merge h.currentSpan huv.currentSpan
    have hbound : (s.currentSpan.merge u.currentSpan).start ≤ R.fence.bound :=
      Nat.le_trans (Nat.min_le_left _ _) h.fence.start_le
    rw [← huv.current?]
    split
    · refine agree_decoded_token (answers_integer _ hspan hbound) (fun a => ?_) ‹_›
        (R.takes rfl) huv
      simp only [Regime.Same, respan, Literal.respan, hspan]
    · refine agree_decoded_token (answers_float _ hspan hbound) (fun a => ?_) ‹_› (R.takes rfl) huv
      simp only [Regime.Same, respan, Literal.respan, hspan]
    · refine agree_decoded_bind (answers_quantity _ _ _ _ hspan hbound) huv fun r _ hr => ?_
      subst hr
      exact agree_token (by simp only [Regime.Same, respan, Literal.respan, hspan]) ‹_›
        (R.takes rfl) huv
    · refine agree_decoded_bind (answers_quantity _ _ _ _ hspan hbound) huv fun r _ hr => ?_
      subst hr
      exact agree_token (by simp only [Regime.Same, respan, Literal.respan, hspan]) ‹_›
        (R.takes rfl) huv
    · refine agree_decoded_token (answers_decodeBytes hspan ?_) (fun a => ?_) ‹_› (R.takes rfl) huv
      · exact Nat.le_trans (Nat.add_le_add_right (Nat.min_le_right _ _) _) (huv.string_le ‹_›)
      · simp only [Regime.Same, respan, Literal.respan, hspan]
    · exact (agree_string hinner _ huv).bind fun l l' _ _ hl h =>
        .pure (congrArg Literal.string hl) h
    · exact agree_token (by simp only [Regime.Same, respan, Literal.respan, hspan]) ‹_›
        (R.takes rfl) huv
    · exact agree_token (by simp only [Regime.Same, respan, Literal.respan, hspan]) ‹_›
        (R.takes rfl) huv
    · exact agree_token (by simp only [Regime.Same, respan, Literal.respan, hspan]) ‹_›
        (R.takes rfl) huv
    · exact agree_unexpected _ huv

end Literals

end ApiScript.Grammar
