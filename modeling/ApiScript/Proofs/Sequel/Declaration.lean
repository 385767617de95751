import ApiScript.Proofs.Sequel.Literal

set_option autoImplicit false
set_option relaxedAutoImplicit false

/-!
Objects, blocks, declarations and statements carry over. Only what begins with a keyword of its own
ends in front of another declaration; a brace has to be closed before.
-/

namespace ApiScript.Grammar

variable {α β : Type} {K : Sequel} {reach room : Nat} {s t u : State}

section Names

theorem carries_names (delimiter : Delimiter) (opener : Span) (expected : Expectation)
    (h : K.Extends s t) :
    Carries K reach room 0 (fun _ => 0) (names delimiter opener expected)
      (names delimiter opener expected) s t := by
  unfold names
  have hname {s t : State} (h : K.Extends s t) :
      Carries K reach room 0 (fun _ => 0) (name expected) (name expected) s t :=
    carries_name expected h
  refine (carries_delimited delimiter false opener hname h).bind fun r u v h => .pure ?_ h
  induction r.1 with
  | nil => rfl
  | cons n ns ih => rwa [highest_cons, Nat.zero_max]

private theorem carries_usePath (h : K.Extends s t) :
    Carries K reach room 0 (fun _ => 0) usePath usePath s t := by
  unfold usePath
  refine (carries_name _ h).step fun n u v h =>
    carries_collect (fun hread => ?_) (fun {s t} h => .get_bind ?_) [n] h
  · simp only [reads_bind, reads_get, reads_ite, reads_advance, reads_pure, and_assoc,
      exists_and_left, exists_eq_left, exists_const, reduceCtorEq, false_and, and_false,
      or_false] at hread
    obtain ⟨hs, _, _, n, _, hn, _, rfl⟩ := hread
    exact Nat.lt_trans (Consumes.shorter hn) (State.advance_shorter (State.current?_of_sees hs))
  · refine .ite ?_ (fun hscope => .advance_bind ?_) fun _ => .pure rfl h
    · rw [h.sees rfl]
      refine and_congr_right fun hs => ?_
      have hlength := State.length_of_peek? (State.current?_of_sees hs)
      rw [ne_eq, ne_eq, ne_eq, ne_eq, h.peek?_iff hlength rfl, h.peek?_iff hlength rfl]
    · have hadvance := h.advance (State.ne_nil_of_sees hscope.1)
      exact (carries_name _ hadvance).step fun n u v h => .pure rfl h

private theorem carries_importedNames (h : K.Extends s t) :
    Carries K reach room 0 (fun _ => 0) importedNames importedNames s t := by
  unfold importedNames
  refine (carries_expect _ h).step fun opener u v h => .get_bind ?_
  exact .ite (by rw [h.sees rfl]) (fun _ => .unexpected) fun _ => carries_names _ _ _ h

private theorem carries_pathTarget (h : K.Extends s t) :
    Carries K reach room 0 UseTarget.nesting pathTarget pathTarget s t := by
  unfold pathTarget
  refine (carries_usePath h).step fun path u v h => (carries_accept rfl h).step fun r u v h => ?_
  refine .ite Iff.rfl (fun _ => (carries_accept rfl h).step fun r u v h => ?_) fun _ => .pure rfl h
  exact .ite Iff.rfl (fun _ => .pure rfl h) fun _ => (carries_importedNames h).step fun ns u v h =>
    .pure rfl h

end Names

section Statements

theorem carries_statements {surroundings : Surroundings} {statement statement' : Parser α}
    {cost : α → Nat} [Advances statement] [Consumes statement] [Advances statement']
    [Consumes statement']
    (hstatement : ∀ {s t}, K.Extends s t → Carries K reach room 0 cost statement statement' s t)
    (opener : Span) {make : List α → Span → β} {cost' : β → Nat}
    (hcost : ∀ items closer, cost' (make items closer) = highest cost items) (h : K.Extends s t) :
    Carries K reach room 0 cost'
      (do
        let items ← statements surroundings atBlockEnd statement
        let closer ← close .brace false opener
        return make items closer)
      (do
        let items ← statements surroundings atBlockEnd statement'
        let closer ← close .brace false opener
        return make items closer) s t := by
  have hend {s t : State} (h : K.Extends s t) (hs : ¬atBlockEnd s) : ¬atBlockEnd t := by
    rw [atBlockEnd, Bool.or_eq_true, not_or] at hs ⊢
    rw [h.sees (l := .symbol .rightBrace) rfl]
    exact ⟨hs.1, h.not_atEnd hs.2⟩
  intro b w hread
  obtain ⟨items, u, hitems, hread⟩ := reads_bind.1 hread
  obtain ⟨closer, v, hclose, hread⟩ := reads_bind.1 hread
  obtain ⟨hc, rfl, rfl⟩ := reads_close.1 hclose
  obtain ⟨rfl, rfl⟩ := reads_pure.1 hread
  have hne := State.ne_nil_of_sees hc
  rw [hcost]
  refine ((((reads_statements atBlockEnd_of_atEnd).1 hitems).carry hstatement hend h).to_advance
    hne).imp fun y _ hnext => ?_
  obtain ⟨x, hx, ⟨_, hlisted⟩, hy⟩ := hnext
  have hcx : x.sees (.symbol .rightBrace) = true := hx.sees_of_sees hc
  have hdone := hlisted [] x (.done (by rw [atBlockEnd, hcx, Bool.true_or]))
  rw [List.append_nil] at hdone
  refine reads_bind.2 ⟨items, x, (reads_statements atBlockEnd_of_atEnd).2 hdone,
    reads_bind.2 ⟨u.currentSpan, y, ?_, ?_⟩⟩
  · exact reads_close.2 ⟨hcx, (hx.currentSpan hne).symm, hy⟩
  · exact reads_pure.2 ⟨rfl, rfl⟩

end Statements

variable {inner inner' : Inner} (hinner : Carried reach room inner inner')
include hinner

private theorem carries_field (h : K.Extends s t) :
    Carries K reach room 0 Field.nesting (field inner) (field inner') s t := by
  unfold field
  dsimp only
  have finish {key : Key} {levels : Nat} {u v : State} (hlevels : levels = key.nesting)
    (h : K.Extends u v) :
      Carries K reach room levels Field.nesting
        (do
          let _ ← expect (.symbol .colon)
          let value ← inner .expression
          return ⟨key, value, key.span.merge value.span⟩)
        (do
          let _ ← expect (.symbol .colon)
          let value ← inner' .expression
          return ⟨key, value, key.span.merge value.span⟩) u v := by
    refine (carries_expect _ h).step fun _ u v h => (hinner.expression h).bind fun value u v h =>
      .pure ?_ h
    rw [hlevels, Field.nesting]
  refine .get_bind (.ite (by rw [h.atIdentifier]) (fun _ => ?_) fun _ => ?_)
  · exact (carries_name _ h).step fun n u v h => finish rfl h
  · exact (carries_string hinner _ h).bind fun key u v h => finish (Nat.zero_max _) h

private theorem Fields.carry {more : Bool} {fs : List Field} (hrun : Fields inner more s fs u)
    (h : K.Extends s t) :
    Carry K reach room 0 (highest Field.nesting fs) s u (Fields inner' more t fs) := by
  induction hrun generalizing t with
  | done hs => exact .plain List.prefix_rfl ⟨t, .done (by rwa [h.sees rfl]), h⟩
  | more hs hf hb _ ih =>
    rw [highest_cons]
    refine ((carries_field hinner h _ _ hf).append fun v hv =>
      (carries_accept rfl hv _ _ hb).trans fun w hw => ih hw).imp
      fun x _ ⟨v, _, hv, w, _, hw, hx⟩ => .more ?_ hv hw hx
    rwa [h.sees rfl]

section Loops

variable [∀ e, Advances (inner e)] [∀ e, Advances (inner' e)]

theorem carries_object (guessed : Bool) (h : K.Extends s t) :
    Carries K reach room 0 Object.nesting (object inner guessed) (object inner' guessed) s t := by
  intro o w hread
  obtain ⟨u, hs, hfields, _, hc, ho, rfl⟩ := reads_object.1 hread
  have hopener := State.ne_nil_of_sees hs
  have hne := State.ne_nil_of_sees hc
  have hway := (hfields.carry hinner (h.advance hopener)).from_advance.to_advance hne
  have hcost : o.nesting = highest Field.nesting o.fields := by
    cases o
    rw [Object.nesting, Field.nestingAll_eq]
  rw [hcost]
  refine hway.imp fun y _ ⟨x, hx, hfields', hy⟩ =>
    reads_object.2 ⟨x, h.sees_of_sees hs, hfields', ?_, ?_, ?_, hy⟩
  · exact fun hguess => hguess.2.1 (hx.sees_of_sees hc)
  · exact hx.sees_of_sees hc
  · rw [h.currentSpan hopener, hx.currentSpan hne]
    exact ho

theorem carries_optionalObject (h : K.Extends s t) :
    Carries K reach room 0 (fun o : Option Object => o.elim 0 Object.nesting) (optionalObject inner)
      (optionalObject inner')
      s t := by
  unfold optionalObject
  refine .get_bind (.ite (by rw [h.atOptionalObject]) (fun _ => ?_) fun _ => .pure rfl h)
  exact (carries_object hinner false h).bind fun o u v h => .pure (Nat.zero_max _).symm h

private theorem carries_operation (h : K.Extends s t) :
    Carries K reach room 0 Decl.nesting (operation inner) (operation inner') s t := by
  unfold operation
  dsimp only
  refine (carries_expect _ h).step fun start u v h => (carries_name _ h).step fun n u v h => ?_
  refine (carries_expect _ h).step fun _ u v h => (carries_name _ h).step fun protocol u v h => ?_
  refine (carries_expect _ h).step fun _ u v h => (carries_name _ h).step fun method u v h => ?_
  refine (carries_string hinner _ h).bind fun target u v h => .get_bind ?_
  have finish {query : Option StringLiteral} {levels : Nat} {u v : State}
      (hlevels : levels = max target.nesting (query.elim 0 StringLiteral.nesting))
      (h : K.Extends u v) :
      Carries K reach room levels Decl.nesting
        (do
          let metadata ← optionalObject inner
          let span ← upToHere start
          return .operation span n protocol method target query metadata)
        (do
          let metadata ← optionalObject inner'
          let span ← upToHere start
          return .operation span n protocol method target query metadata) u v := by
    refine (carries_optionalObject hinner h).bind fun metadata u v h =>
      (carries_upToHere _ h).step fun span u v h => ?_
    refine .pure ?_ h
    rw [hlevels, Nat.max_assoc]
    cases query <;> cases metadata <;> rfl
  refine .ite (by rw [h.atString]) (fun _ => ?_) fun _ => ?_
  · exact (carries_string hinner _ h).bind fun query u v h => finish (by rw [Nat.zero_max]; rfl) h
  · exact finish (by rw [Nat.zero_max, Option.elim_none, Nat.max_zero]) h

private theorem carries_profile (h : K.Extends s t) :
    Carries K reach room 0 Decl.nesting (profile inner) (profile inner') s t := by
  unfold profile
  refine (carries_expect _ h).step fun start u v h => (carries_name _ h).step fun n u v h => ?_
  exact (carries_object hinner false h).bind fun o u v h => .pure (Nat.zero_max _).symm h

end Loops

private theorem carries_functionBody (h : K.Extends s t) :
    Carries K reach room 0 Body.nesting (functionBody inner) (functionBody inner') s t := by
  unfold functionBody
  refine (carries_accept rfl h).step fun r u v h => .ite Iff.rfl (fun _ => ?_) fun _ => .get_bind ?_
  · exact (hinner.expression h).bind fun e u v h => .pure (Nat.zero_max _).symm h
  · refine .ite (by rw [h.sees rfl]) (fun _ => ?_) fun _ => .unexpected
    exact (hinner.block h).bind fun b u v h => .pure (Nat.zero_max _).symm h

private theorem carries_function (h : K.Extends s t) :
    Carries K reach room 0 Decl.nesting (function inner) (function inner') s t := by
  unfold function
  refine (carries_expect _ h).step fun start u v h => (carries_name _ h).step fun n u v h => ?_
  refine (carries_expect _ h).step fun opener u v h =>
    (carries_names _ _ _ h).step fun params u v h => ?_
  refine (carries_functionBody hinner h).bind fun body u v h =>
    (carries_upToHere _ h).step fun span u v h => ?_
  exact .pure (Nat.zero_max _).symm h

private theorem carries_binding (h : K.Extends s t) :
    Carries K reach room 0 Decl.nesting (binding inner) (binding inner') s t := by
  unfold binding
  refine (carries_expect _ h).step fun start u v h => (hinner.pattern h).bind fun p u v h => ?_
  refine (carries_expect _ h).step fun _ u v h => (hinner.expression h).bind fun value u v h =>
    .pure ?_ h
  rw [Nat.zero_max, Decl.nesting]

private theorem carries_use (h : K.Extends s t) : Carries K reach room 0 Decl.nesting (use inner)
    (use inner') s t := by
  unfold use
  dsimp only
  refine (carries_expect _ h).step fun start u v h => .get_bind ?_
  have finish {target : UseTarget} {u v : State} (h : K.Extends u v) :
      Carries K reach room (max 0 target.nesting) Decl.nesting
        (get >>= fun s => if s.sees (.symbol .leftBrace) = true then do
            let body ← inner .block
            let span ← upToHere start
            pure (Decl.use span target (some body))
          else do
            let span ← upToHere start
            pure (Decl.use span target none))
        (get >>= fun s => if s.sees (.symbol .leftBrace) = true then do
            let body ← inner' .block
            let span ← upToHere start
            pure (Decl.use span target (some body))
          else do
            let span ← upToHere start
            pure (Decl.use span target none)) u v := by
    rw [Nat.zero_max]
    refine .get_bind (.ite (by rw [h.sees rfl]) (fun _ => ?_) fun _ => ?_)
    · exact (hinner.block h).bind fun body u v h => (carries_upToHere _ h).step fun span u v h =>
        .pure rfl h
    · exact (carries_upToHere _ h).step fun span u v h => .pure (Nat.max_zero _) h
  refine .ite ?_ (fun _ => ?_) fun _ => ?_
  · rw [h.atIdentifier]
    refine and_congr_right fun hs => h.peek?_iff (List.length_pos_iff.2 fun hnil => ?_) rfl
    rw [State.atIdentifier, State.current?_of_nil hnil] at hs
    cases hs
  · exact (carries_pathTarget h).bind fun target u v h => finish h
  · exact (hinner.expression h).bind fun e u v h => finish h

variable [∀ e, Advances (inner e)] [∀ e, Advances (inner' e)]

theorem carries_declaration? (hs : s.after ≠ []) (h : K.Extends s t) :
    Carries K reach room 0 (fun d : Option Decl => d.elim 0 Decl.nesting) (declaration? inner)
      (declaration? inner')
      s t := by
  have read {p q : Parser Decl} (hp : Carries K reach room 0 Decl.nesting p q s t) :
      Carries K reach room 0 (fun d : Option Decl => d.elim 0 Decl.nesting) (do return some (← p))
        (do return some (← q))
        s t := hp.bind fun d u v h => .pure (Nat.zero_max _).symm h
  unfold declaration?
  refine .get_bind ?_
  rw [h.current?_of_ne_nil hs]
  split
  · exact read (carries_operation hinner h)
  · exact read (carries_profile hinner h)
  · exact read (carries_function hinner h)
  · exact read (carries_binding hinner h)
  · exact read (carries_use hinner h)
  · exact .pure rfl h

variable [Consumes (inner .expression)]

theorem carries_item (h : K.Extends s t) : Carries K reach room 0 Item.nesting (item inner)
    (item inner') s t := by
  refine .ahead fun hs => ?_
  unfold item
  refine (carries_declaration? hinner hs h).bind fun d u v h => ?_
  cases d with
  | some d => exact .pure (Nat.zero_max _).symm h
  | none =>
    have hlevels (e : Expr) : (Item.expr e).nesting = max 0 (e.nesting + 1) := by
      rw [Item.nesting]
      omega
    exact (hinner.expression h).bind fun e u v h => .pure (hlevels e) h

theorem carries_itemBlock [Consumes (inner' .expression)] (h : K.Extends s t) :
    Carries K reach room 0 Block.nesting (itemBlock inner) (itemBlock inner') s t := by
  unfold itemBlock block
  refine (carries_expect _ h).step fun opener u v h => ?_
  refine carries_statements (carries_item hinner) opener (fun items closer => ?_) h
  rw [Block.nesting, Item.nestingAll_eq]

end ApiScript.Grammar
