import ApiScript.Proofs.Pairing.Pattern

set_option autoImplicit false
set_option relaxedAutoImplicit false

/-!
Braces are read the same way in both runs: objects, and blocks of statements. A block is closed in
front of a fence, since no bracket is open there.
-/

namespace ApiScript.Grammar

open Placed

section Objects

variable {R : Regime} {b : Bool} {s t : State} {inner inner' : Inner}

private theorem same_key_span {k k' : Key} (h : R.Same k k') : R.Same k.span k'.span := by
  have hspan (f : Span → Span) (k : Key) : (k.respan f).span = f k.span := by
    cases k with
    | name n => simp only [Key.respan, Key.span, Name.respan]
    | string s =>
      cases s
      simp only [Key.respan, Key.span, StringLiteral.respan]
  have hkeys := congrArg Key.span h
  simpa only [Regime.Same, respan, hspan] using hkeys

theorem same_expr_span {e e' : Expr} (h : R.Same e e') : R.Same e.span e'.span := by
  have hspan := congrArg Expr.span h
  simpa only [Regime.Same, respan, Expr.span_respan] using hspan

theorem same_object_span {o o' : Object} (h : R.Same o o') : R.Same o.span o'.span := by
  cases o
  cases o'
  simp only [Regime.Same, respan, Object.respan, Object.mk.injEq] at h ⊢
  exact h.2

private theorem agree_field (hinner : Alike inner inner') (h : Twins R b s t) :
    Agree R true (field inner) (field inner') s t := by
  unfold field
  refine .get_bind ?_
  dsimp only
  have finish {key key' : Key} {u v : State} (hkey : R.Same key key') (huv : Twins R true u v) :
      Agree R true
        (expect (.symbol .colon) >>= fun _ => inner .expression >>= fun value =>
          pure (Field.mk key value (key.span.merge value.span)))
        (expect (.symbol .colon) >>= fun _ => inner' .expression >>= fun value =>
          pure (Field.mk key' value (key'.span.merge value.span))) u v := by
    refine (agree_expect (R.takes rfl) huv).bind fun _ _ u v _ huv => ?_
    refine (hinner.expression huv).bind fun e e' u v he huv => .pure ?_ huv
    have hspan := same_merge (same_key_span hkey) (same_expr_span he)
    simp only [Regime.Same, respan, Field.respan] at hkey he hspan ⊢
    simp only [hkey, he, hspan]
  refine .ite (by rw [h.atIdentifier]) (fun _ => ?_) fun _ => ?_
  · refine (agree_name _ h).bind fun n n' u v hn huv => finish ?_ huv
    simp only [Regime.Same, respan, Key.respan] at hn ⊢
    rw [hn]
  · refine (agree_string hinner _ h).bind fun l l' u v hl huv => finish ?_ huv
    simp only [Regime.Same, respan, Key.respan] at hl ⊢
    rw [hl]

theorem agree_object (hinner : Alike inner inner') (guessed : Bool) (h : Twins R b s t) :
    Agree R true (object inner guessed) (object inner' guessed) s t := by
  unfold object
  refine (agree_expect (R.takes rfl) h).bind fun opener opener' u v hopener huv => ?_
  refine Agree.bind (agree_repeated ?_ (rfl : R.Same (([] : List Field), true) ([], true)) huv) ?_
  · intro (fields, more) (fields', more') s t ha h
    obtain ⟨hfields, hmore⟩ := same_pair.1 ha
    cases (hmore : more = more')
    refine .get_bind (.ite (by rw [h.sees]) (fun _ => ?_) fun _ => .pure rfl h)
    refine (agree_field hinner h).bind fun f f' u v hf h =>
      (agree_accept (R.takes rfl) h).bind fun r r' u v hr h => ?_
    exact .pure (congrArg
      some (same_pair.2 ⟨same_append hfields (same_cons_left.2 ⟨_, [], rfl, hf, rfl⟩), hr⟩)) h
  · intro (fields, more) (fields', more') u v hr huv
    obtain ⟨hfields, _⟩ := same_pair.1 hr
    have finish {u v : State} (huv : Twins R true u v) : Agree R true
        (close .brace true opener >>= fun closer => pure (Object.mk fields (opener.merge closer)))
        (close .brace true opener' >>= fun closer =>
          pure (Object.mk fields' (opener'.merge closer))) u v := by
      refine (agree_close .brace true hopener huv).bind fun closer closer' u v hcloser huv =>
        .pure ?_ huv
      have hspan := same_merge hopener hcloser
      simp only [Regime.Same, respan, Object.respan, Field.respanAll_eq_map] at hfields hspan ⊢
      simp only [hfields, hspan]
    refine .get_bind (.ite (by rw [huv.sees, huv.atEnd]) (fun _ => .throw ⟨?_, ?_⟩ huv) fun _ =>
      finish huv)
    · have hspan := same_merge hopener huv.currentSpan
      simp only [Regime.Same, respan, Diagnostic.respan] at hspan ⊢
      rw [hspan, huv.current?]
      rfl
    · exact Nat.le_trans (Nat.min_le_right _ _) huv.fence.start_le

theorem agree_optionalObject (hinner : Alike inner inner') (h : Twins R b s t) :
    Agree R b (optionalObject inner) (optionalObject inner') s t := by
  unfold optionalObject
  refine .get_bind (.ite (by rw [h.atOptionalObject]) (fun _ => ?_) fun _ => .pure rfl h)
  exact (agree_object hinner false h).bind fun o o' u v ho h =>
    .pure (congrArg some ho) (h.weaken fun _ => rfl)

end Objects

section Braces

variable {α β : Type} [Placed α] [Placed β] {R : Regime} {b : Bool} {s t : State} {surroundings :
    Surroundings}
  {statement statement' : Parser α} [Advances statement] [Keeps statement]

theorem agree_braces (hb : surroundings ≠ .script)
    (hstatement : ∀ {s t : State}, R.fence.Heads s → Twins R false s t →
    Agree R true statement statement' s t) {f f' : Span → List α → Parser β}
    (hf : ∀ {o o' as as' u v}, R.Same o o' → R.Same as as' → Twins R false u v →
    Agree R true (f o as) (f' o' as') u v) (h : Twins R b s t) :
    Agree R true (expect (.symbol .leftBrace) >>= fun o =>
      statements surroundings atBlockEnd statement >>= f o)
      (expect (.symbol .leftBrace) >>= fun o => statements surroundings atBlockEnd statement' >>=
          f' o) s t := by
  refine (agree_expect (R.takes rfl) h).bind_reads fun opener opener' u v hread _ hopener huv => ?_
  obtain ⟨hsees, _, rfl⟩ := reads_expect.1 hread
  -- All statements begin inside of the opening brace.
  let Inside (u : State) : Prop :=
    R.fence.Open ∨ Above ((s.before.length, .brace) :: openers s.before) u
  have hinside : Inside s.advance := .inr (above_opener hsees rfl)
  refine Agree.bind
    (agree_statements (P := Inside) (fun h => h.atBlockEnd) (fun hP h _ => ?_) ?_ ?_
      hstatement hinside
    (huv.weaken nofun)) fun items items' u v hitems h => hf hopener hitems h
  · exact hP.elim (fun hopen _ _ _ => hopen) h.fence.heads_of_above
  · intro u v a hP hfence hread
    by_cases hopen : R.fence.Open
    · exact .inl hopen
    · exact .inr ((Keeps.leaves (hfence.nested hopen) (hP.resolve_left hopen)).reads hread)
  · intro u v d hP hfence hend hfail
    by_cases hopen : R.fence.Open
    · exact .inl hopen
    · have hnested := hfence.nested hopen
      have hreach : Reaches u (v.report [d]) := (Advances.fails hfail).trans (.report _ _)
      have hkept := (Keeps.leaves hnested (hP.resolve_left hopen)).fails hfail
      exact .inr (.recover hb hend hreach (hnested.reaches hreach) hkept)

theorem agree_block {statement statement' : Parser Item} [Advances statement] [Keeps statement]
    (hstatement : ∀ {s t : State}, R.fence.Heads s → Twins R false s t →
    Agree R true statement statement' s t)
    (h : Twins R b s t) : Agree R true (block statement) (block statement') s t := by
  unfold block
  refine agree_braces (by decide) hstatement (fun hopener hitems h => ?_) h
  refine (agree_close .brace false hopener h).bind fun closer closer' u v hcloser h => .pure ?_ h
  have hspan := same_merge hopener hcloser
  simp only [Regime.Same, respan, Block.respan, Item.respanAll_eq_map] at hitems hspan ⊢
  simp only [hitems, hspan]

end Braces

end ApiScript.Grammar
