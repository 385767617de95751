import ApiScript.Proofs.Spelling.Pattern

set_option autoImplicit false
set_option relaxedAutoImplicit false

/-!
Objects, blocks and declarations stand for the tokens they were read from. Between the statements of
a block tokens may be skipped, but then something is reported.
-/

namespace ApiScript.Grammar

variable {inner : Inner} {s t u : State}

private theorem Wrote.accept {l : Lexeme} {b : Bool} (h : Reads (Grammar.accept l) s b t) :
    Wrote s (if b then [.plain l] else []) t := by
  rcases reads_accept.1 h with ⟨hs, rfl, rfl⟩ | ⟨_, rfl, rfl⟩
  · exact .plain hs
  · exact .nil _

private theorem Wrote.field (hi : Writes inner) {f : Field} (h : Reads (field inner) s f t) :
    Wrote s f.marks t := by
  simp only [Grammar.field, reads_bind, reads_get, reads_ite, reads_pure, and_assoc,
    exists_and_left, exists_eq_left] at h
  have assemble {key : Key} {s₁ s₂ s₃ : State} {colon : Span} {value : Expr}
    (hkey : Wrote s key.marks s₁)
      (hcolon : Reads (Grammar.expect (.symbol .colon)) s₁ colon s₂)
      (hvalue : Reads (inner .expression) s₂ value s₃) :
      Wrote s (Field.marks ⟨key, value, key.span.merge value.span⟩) s₃ := by
    have hcolon := Wrote.expect hcolon
    have hvalue := hi.expression hvalue
    rw [Field.marks]
    exact .node ((hkey.append hcolon).append hvalue)
      ((hkey.spans key.marks_isNode).merge hcolon.reaches (hvalue.spans value.marks_isNode))
  rcases h with ⟨_, n, s₁, hn, _, s₂, hcolon, value, s₃, hvalue, rfl, rfl⟩ |
    ⟨_, l, s₁, hl, _, s₂, hcolon, value, s₃, hvalue, rfl, rfl⟩
  · refine assemble ?_ hcolon hvalue
    rw [Key.marks]
    exact .anyName hn
  · refine assemble ?_ hcolon hvalue
    rw [Key.marks]
    exact string_wrote hi hl

private theorem Fields.wrote (hi : Writes inner) {b : Bool} {fs : List Field}
    (h : Fields inner b t fs u) (hb : Reads (accept (.symbol .comma)) s b t)
    (hc : u.sees (.symbol .rightBrace) = true) :
    Wrote s ((fs.map Field.marks).flatMap (Mark.symbol .comma :: ·) ++ [.trailing .rightBrace])
      u.advance := by
  induction h generalizing s with
  | @done b t _ =>
    obtain ⟨next, rest, ht, hnext⟩ := State.sees_iff.1 hc
    rcases reads_accept.1 hb with ⟨hs, _, rfl⟩ | ⟨_, _, rfl⟩
    · obtain ⟨comma, rest', hs, hcomma⟩ := State.sees_iff.1 hs
      exact .trailing ((Moves.advance hs).trans (.advance ht)) (.inr (by simp [hcomma, hnext]))
    · exact .trailing (.advance ht) (.inl (by rw [List.map_cons, hnext, List.map_nil]))
  | more _ hf hb' _ ih =>
    have hcomma := Wrote.accept hb
    rw [List.map_cons, List.flatMap_cons, List.append_assoc]
    exact hcomma.append ((Wrote.field hi hf).append (ih hb' hc))

variable [∀ e, Advances (inner e)]

private theorem Fields.reaches {b : Bool} {fs : List Field} (h : Fields inner b s fs t) :
    Reaches s t := by
  induction h with
  | done => exact .refl _
  | more _ hf hb _ ih => exact (Advances.reads hf).trans ((Advances.reads hb).trans ih)

theorem Wrote.object (hi : Writes inner) {guessed : Bool} {o : Object}
    (h : Reads (object inner guessed) s o u) :
    Wrote s o.marks u := by
  obtain ⟨t, hs, hfields, _, hc, ho, rfl⟩ := reads_object.1 h
  have hopener := Wrote.plain hs
  have hspan := (Spans.token (State.current?_of_sees hs)).merge hfields.reaches
    (.token (State.current?_of_sees hc))
  rw [ho, Object.marks, Field.marksEach_eq_map]
  refine .node ?_ hspan
  cases hfields' : o.fields with
  | nil =>
    rw [hfields'] at hfields
    cases hfields
    exact hopener.append (.plain hc)
  | cons f fs =>
    rw [hfields'] at hfields
    cases hfields with
    | more _ hf hb rest =>
      have h := hopener.append ((Wrote.field hi hf).append (rest.wrote hi hb hc))
      simpa only [Mark.listed, Mark.separated, List.map_cons, List.cons_append, List.append_assoc,
        List.nil_append, ↓reduceIte] using h

theorem Wrote.optionalObject (hi : Writes inner) {o : Option Object}
    (h : Reads (optionalObject inner) s o t) :
    Wrote s (match o with
      | none => []
      | some o => o.marks) t := by
  simp only [Grammar.optionalObject, reads_bind, reads_get, reads_ite, reads_pure, and_assoc,
    exists_and_left, exists_eq_left] at h
  rcases h with ⟨_, o, _, ho, rfl, rfl⟩ | ⟨_, rfl, rfl⟩
  · exact .object hi ho
  · exact .nil _

def State.Settled (s : State) : Prop := s.sees (.symbol .or) = false

private theorem State.Settled.head (h : s.Settled) :
    ∀ next ∈ s.after.head?, next.lexeme ≠ .symbol .or := by
  intro next hnext hor
  obtain ⟨rest, hs⟩ := List.head?_eq_some_iff.1 hnext
  rw [State.Settled, State.sees_iff.2 ⟨next, rest, hs, hor⟩] at h
  cases h

section Statements

variable {α : Type} {surroundings : Surroundings} {atEnd : State → Bool} {statement : Parser α}
    [Advances statement]
  {marks : α → List Mark} {open_ : α → Bool}

private theorem Wrote.skipped {ts : List Token} {b c : Bool} {ms : List Mark} (h : Moves s ts t)
    (hreport : s.log.length < t.log.length) (k : Wrote t (.seam b :: ms) u) :
    Wrote s (.seam c :: ms) u := by
  obtain ⟨us, km, kms⟩ := k
  refine ⟨ts ++ us, h.trans km, fun hs lax hlog => ?_⟩
  have hlen := km.log.length_le
  have hlax : lax = true := hlog.resolve_right fun hlog => by rw [hlog] at hlen; omega
  have hspelled := kms (hs.reaches ⟨ts, h⟩) lax (.inl hlax)
  simp only [Mark.SpelledAll] at hspelled ⊢
  obtain ⟨vs, ws, rfl, _, hms⟩ := hspelled
  exact ⟨ts ++ vs, ws, (List.append_assoc _ _ _).symm, .inl hlax, hms⟩

private theorem Wrote.seam {b : Bool} (h : b = true → s.Settled) : Wrote s [.seam b] s := by
  refine ⟨[], .refl s, fun _ lax _ => ?_⟩
  rw [Mark.spelledAll_singleton]
  exact .inr ⟨rfl, fun hb => (h hb).head⟩

theorem Listed.wrote (hmarks : ∀ {s a t}, Reads statement s a t → Wrote s (marks a) t)
    (hopen : ∀ {s a t}, Reads statement s a t → open_ a = true → t.Settled) {as : List α}
    (h : Listed surroundings atEnd statement s as t) {b : Bool} (hb : b = true → s.Settled) :
    Wrote s (.seam b :: as.flatMap fun a => marks a ++ [.seam (open_ a)]) t := by
  induction h generalizing b with
  | done => exact .seam hb
  | read _ ha _ ih =>
    rw [List.flatMap_cons, List.append_assoc]
    exact (Wrote.seam hb).cons ((hmarks ha).append (ih (hopen ha)))
  | @resume s u _ d _ _ hd _ ih =>
    obtain ⟨ts, hm⟩ := ((Advances.fails hd).trans (.report u [d])).trans
      (.recover (u.report [d]) surroundings s.before.length)
    have hreport :
        s.log.length < ((u.report [d]).recover surroundings s.before.length).log.length := by
      have hlog := (Advances.fails hd).log.length_le
      simp only [State.recover, State.report, List.length_append, List.length_singleton]
      omega
    exact .skipped hm hreport (@ih false (by simp))

end Statements

omit [∀ e, Advances (inner e)] in
private theorem Wrote.block {statement : Parser Item} [Advances statement] [Consumes statement]
    (hmarks : ∀ {s i t}, Reads statement s i t → Wrote s i.marks t)
    (hopen : ∀ {s i t}, Reads statement s i t → i.open_ = true → t.Settled) {b : Block}
    (h : Reads (block statement) s b t) : Wrote s b.marks t := by
  simp only [Grammar.block, reads_bind, reads_pure] at h
  obtain ⟨opener, s₁, hopener, items, s₂, hitems, closer, s₃, hcloser, rfl, rfl⟩ := h
  rw [reads_statements atBlockEnd_of_atEnd] at hitems
  have hopener' := Wrote.expect hopener
  have hitems := hitems.wrote hmarks hopen (b := false) (by simp)
  rw [Block.marks, Item.marksAll_eq_flatMap]
  exact .node ((hopener'.append hitems).append (.close hcloser))
    ((Spans.expect hopener).merge hitems.reaches (.close hcloser))

omit [∀ e, Advances (inner e)] in
theorem reads_names {delimiter : Delimiter} {opener : Span} {expected : Expectation}
    {ns : List Name} :
    Reads (names delimiter opener expected) s ns t ↔
      ∃ closer, Reads (delimited delimiter false opener (name expected)) s (ns, closer) t := by
  simp only [names, reads_bind, reads_pure]
  constructor
  · rintro ⟨⟨ns', closer⟩, u, h, rfl, rfl⟩
    exact ⟨closer, h⟩
  · rintro ⟨closer, h⟩
    exact ⟨(ns, closer), t, h, rfl, rfl⟩

omit [∀ e, Advances (inner e)] in
theorem reads_upToHere {start span : Span} :
    Reads (upToHere start) s span t ↔ span = start.merge s.previousSpan ∧ t = s := reads_ask

theorem Spans.upToHere {α : Type} {p : Parser α} [Advances p] [Consumes p] {x : α} {l : Lexeme}
    {start : Span} (h : Reads p s x t) (hstart : Reads (Grammar.expect l) s start u) :
    Spans s (start.merge t.previousSpan) t := by
  rw [(reads_expect.1 hstart).2.1]
  exact .ofReads h (.refl t)

theorem Wrote.operation (hi : Writes inner) {d : Decl} (h : Reads (operation inner) s d t) :
    Wrote s d.marks t ∧ d.open_ = false := by
  have hread := h
  simp only [Grammar.operation, reads_bind, reads_get, reads_ite, reads_pure, reads_upToHere,
    and_assoc, exists_and_left, exists_eq_left] at h
  obtain ⟨start, s₁, hstart, n, s₂, hn, _, s₃, hassign, protocol, s₄, hprotocol, _, s₅, hdot,
    method, s₆, hmethod, target, s₇, htarget, h⟩ := h
  have hw := (((((Wrote.expect hstart).append (.anyName hn)).append (.expect hassign)).append
    (.anyName hprotocol)).append (.expect hdot)).append (.anyName hmethod) |>.append
      (string_wrote hi htarget)
  have hspan := Spans.upToHere hread hstart
  rcases h with ⟨_, query, s₈, hquery, metadata, s₉, hmetadata, rfl, rfl⟩ | ⟨_, metadata, s₉,
    hmetadata, rfl, rfl⟩
  · have hquery := string_wrote hi hquery
    have hmetadata := Wrote.optionalObject hi hmetadata
    cases metadata <;>
    · rw [Decl.marks]
      exact ⟨.node ((hw.append hquery).append hmetadata) hspan, rfl⟩
  · have hmetadata := Wrote.optionalObject hi hmetadata
    cases metadata <;>
    · rw [Decl.marks]
      exact ⟨.node ((hw.append (.nil _)).append hmetadata) hspan, rfl⟩

theorem Wrote.profile (hi : Writes inner) {d : Decl} (h : Reads (profile inner) s d t) :
    Wrote s d.marks t ∧ d.open_ = false := by
  simp only [Grammar.profile, reads_bind, reads_pure] at h
  obtain ⟨start, s₁, hstart, n, s₂, hn, fields, s₃, hfields, rfl, rfl⟩ := h
  have hn := Wrote.anyName hn
  have hfields := Wrote.object hi hfields
  rw [Decl.marks]
  exact ⟨.node (((Wrote.expect hstart).append hn).append hfields)
    ((Spans.expect hstart).merge hn.reaches (hfields.spans fields.marks_isNode)), rfl⟩

omit [∀ e, Advances (inner e)] in
private theorem Wrote.functionBody (hi : Writes inner) {b : Body}
    (h : Reads (functionBody inner) s b t) :
    Wrote s b.marks t ∧ ((∃ e, b = .expr e) → t.Settled) := by
  simp only [Grammar.functionBody, reads_bind, reads_accept, reads_ite, reads_get, reads_pure,
    reads_unexpected, and_false, or_false, and_assoc, exists_and_left, exists_eq_left] at h
  obtain ⟨_, s₁, ⟨hs, rfl, rfl⟩ | ⟨_, rfl, rfl⟩, h⟩ := h
  · obtain ⟨e, _, he, rfl, rfl⟩ := (h.resolve_right (by simp)).2
    rw [Body.marks]
    exact ⟨(Wrote.plain hs).cons (hi.expression he), fun _ => hi.ends he⟩
  · obtain ⟨_, b, _, hb, rfl, rfl⟩ := (h.resolve_left (by simp)).2
    rw [Body.marks]
    refine ⟨hi.block hb, ?_⟩
    rintro ⟨_, he⟩
    cases he

private theorem Wrote.function (hi : Writes inner) {d : Decl} (h : Reads (function inner) s d t) :
    Wrote s d.marks t ∧ (d.open_ = true → t.Settled) := by
  have hread := h
  simp only [Grammar.function, reads_bind, reads_pure, reads_upToHere, reads_names, and_assoc,
    exists_and_left, exists_eq_left] at h
  obtain ⟨start, s₁, hstart, n, s₂, hn, opener, s₃, hopener, params, s₄, ⟨closer, hparams⟩, body,
    s₅, hbody, rfl, rfl⟩ := h
  have hparams := (Wrote.delimited (·.marks .any) rfl .anyName hopener hparams).1
  obtain ⟨hbody, hsettled⟩ := Wrote.functionBody hi hbody
  constructor
  · rw [Decl.marks]
    exact .node ((((Wrote.expect hstart).append (.anyName hn)).append hparams).append hbody)
      (.upToHere hread hstart)
  · intro hopen
    cases body with
    | block b => cases hopen
    | expr e => exact hsettled ⟨e, rfl⟩

omit [∀ e, Advances (inner e)] in
private theorem Wrote.binding (hi : Writes inner) {d : Decl} (h : Reads (binding inner) s d t) :
    Wrote s d.marks t ∧ t.Settled := by
  simp only [Grammar.binding, reads_bind, reads_pure] at h
  obtain ⟨start, s₁, hstart, p, s₂, hp, _, s₃, hassign, value, s₄, hvalue, rfl, rfl⟩ := h
  have hp := hi.pattern hp
  have hassign := Wrote.expect hassign
  refine ⟨?_, hi.ends hvalue⟩
  have hvalue := hi.expression hvalue
  rw [Decl.marks]
  exact .node ((((Wrote.expect hstart).append hp).append hassign).append hvalue)
    ((Spans.expect hstart).merge (hp.reaches.trans hassign.reaches)
    (hvalue.spans value.marks_isNode))

omit [∀ e, Advances (inner e)] in
private theorem Wrote.usePath {path : List Name} (h : Reads usePath s path t) :
    Wrote s (Mark.separated .scope (Name.marksEach path)) t := by
  unfold Grammar.usePath at h
  obtain ⟨n, s₁, hn, h⟩ := reads_bind.1 h
  have hsome {s t : State} {n : Name} (h : Reads (do
      let s ← get
      if s.sees (.symbol .scope) ∧ s.peek? 1 ≠ some (.symbol .star) ∧
          s.peek? 1 ≠ some (.symbol .leftBrace) then
        advance
        return some (← Grammar.name .moduleNameOrEnd)
      else
        return none) s (some n) t) :
      s.sees (.symbol .scope) = true ∧ Reads (Grammar.name .moduleNameOrEnd) s.advance n t := by
    simp only [reads_bind, reads_get, reads_ite, reads_advance, reads_pure, and_assoc,
      exists_and_left, exists_eq_left, exists_const, reduceCtorEq, false_and, and_false, or_false,
      Option.some.injEq] at h
    obtain ⟨hs, _, _, n, _, hn, rfl, rfl⟩ := h
    exact ⟨hs, hn⟩
  obtain ⟨rest, rfl, hrest⟩ := (reads_collect fun h => by
    obtain ⟨hs, hn⟩ := hsome h
    exact Nat.lt_of_le_of_lt (Advances.reads hn).length_le
      (State.advance_shorter (State.current?_of_sees hs))).1 h
  refine (Wrote.anyName hn).append (hrest.wrote (·.marks .any) (fun h => ?_) fun h => ?_)
  · simp only [reads_bind, reads_get, reads_ite, reads_pure, and_assoc, exists_and_left,
      exists_eq_left, exists_const, reduceCtorEq, false_and, and_false, exists_false, false_or] at h
    exact h.2.2
  · obtain ⟨hs, hn⟩ := hsome h
    exact (Wrote.plain hs).cons (.anyName hn)

omit [∀ e, Advances (inner e)] in
private theorem Wrote.importedNames {ns : List Name} (h : Reads importedNames s ns t) :
    Wrote s (Mark.listed .leftBrace .rightBrace false (Name.marksEach ns)) t := by
  simp only [Grammar.importedNames, reads_bind, reads_get, reads_ite, reads_unexpected, reads_names,
    and_assoc, exists_and_left, exists_eq_left, and_false, false_or] at h
  obtain ⟨opener, s₁, hopener, _, closer, h⟩ := h
  exact (Wrote.delimited (·.marks .any) rfl .anyName hopener h).1

omit [∀ e, Advances (inner e)] in
private theorem Wrote.pathTarget {target : UseTarget} (h : Reads pathTarget s target t) :
    Wrote s target.marks t := by
  simp only [Grammar.pathTarget, reads_bind, reads_accept, reads_ite, reads_pure] at h
  obtain ⟨path, s₁, hpath, _, s₂, ⟨hscope, rfl, rfl⟩ | ⟨_, rfl, rfl⟩, h⟩ := h
  · obtain ⟨_, s₃, ⟨hstar, rfl, rfl⟩ | ⟨_, rfl, rfl⟩, h⟩ := (h.resolve_right (by simp)).2
    · obtain ⟨rfl, rfl⟩ := (h.resolve_right (by simp)).2
      rw [UseTarget.marks]
      exact (Wrote.usePath hpath).append ((Wrote.plain hscope).cons (.plain hstar))
    · obtain ⟨ns, _, hns, rfl, rfl⟩ := (h.resolve_left (by simp)).2
      rw [UseTarget.marks]
      exact ((Wrote.usePath hpath).append (.plain hscope)).append (.importedNames hns)
  · obtain ⟨rfl, rfl⟩ := (h.resolve_left (by simp)).2
    rw [UseTarget.marks]
    exact .usePath hpath

private theorem Wrote.use (hi : Writes inner) {d : Decl} (h : Reads (use inner) s d t) :
    Wrote s d.marks t ∧ (d.open_ = true → t.Settled) := by
  have hread := h
  simp only [Grammar.use, reads_bind, reads_get, reads_ite, reads_pure, reads_upToHere, and_assoc,
    exists_and_left, exists_eq_left] at h
  obtain ⟨start, s₁, hstart, h⟩ := h
  have hspan := Spans.upToHere hread hstart
  have assemble {target : UseTarget} {s₂ : State} (htarget : Wrote s₁ target.marks s₂)
      (hsettled : (∃ e, target = .expr e) → s₂.Settled)
      (h : (s₂.sees (.symbol .leftBrace) = true ∧ ∃ b s₃, Reads (inner .block) s₂ b s₃ ∧
          d = .use (start.merge s₃.previousSpan) target (some b) ∧ t = s₃) ∨
        ¬s₂.sees (.symbol .leftBrace) = true ∧
          d = .use (start.merge s₂.previousSpan) target none ∧ t = s₂) :
      Wrote s d.marks t ∧ (d.open_ = true → t.Settled) := by
    rcases h with ⟨_, b, s₃, hb, rfl, rfl⟩ | ⟨_, rfl, rfl⟩
    · rw [Decl.marks]
      refine ⟨.node (((Wrote.expect hstart).append htarget).append (hi.block hb)) hspan,
        fun hopen => ?_⟩
      cases target <;> cases hopen
    · rw [Decl.marks]
      refine ⟨.node (((Wrote.expect hstart).append htarget).append (.nil _)) hspan, fun hopen => ?_⟩
      cases target with
      | expr e => exact hsettled ⟨e, rfl⟩
      | _ => cases hopen
  rcases h with ⟨_, _, target, s₂, htarget, h⟩ | ⟨_, e, s₂, he, h⟩
  · refine assemble (.pathTarget htarget) ?_ h
    rintro ⟨e, rfl⟩
    simp only [Grammar.pathTarget, reads_bind, reads_accept, reads_ite, reads_pure, reduceCtorEq,
      false_and, and_false, exists_false, or_self] at htarget
  · refine assemble ?_ (fun _ => hi.ends he) h
    rw [UseTarget.marks]
    exact hi.expression he

theorem Wrote.declaration? (hi : Writes inner) {r : Option Decl}
    (h : Reads (declaration? inner) s r t) :
    r = none ∧ t = s ∨ ∃ d, r = some d ∧ Wrote s d.marks t ∧ (d.open_ = true → t.Settled) := by
  unfold Grammar.declaration? at h
  rw [reads_get_bind] at h
  split at h
  all_goals simp only [reads_bind, reads_pure] at h
  · obtain ⟨d, _, hd, rfl, rfl⟩ := h
    obtain ⟨hw, hclosed⟩ := Wrote.operation hi hd
    exact .inr ⟨d, rfl, hw, fun hopen => by rw [hclosed] at hopen; cases hopen⟩
  · obtain ⟨d, _, hd, rfl, rfl⟩ := h
    obtain ⟨hw, hclosed⟩ := Wrote.profile hi hd
    exact .inr ⟨d, rfl, hw, fun hopen => by rw [hclosed] at hopen; cases hopen⟩
  · obtain ⟨d, _, hd, rfl, rfl⟩ := h
    exact .inr ⟨d, rfl, Wrote.function hi hd⟩
  · obtain ⟨d, _, hd, rfl, rfl⟩ := h
    exact .inr ⟨d, rfl, (Wrote.binding hi hd).imp_right fun h _ => h⟩
  · obtain ⟨d, _, hd, rfl, rfl⟩ := h
    exact .inr ⟨d, rfl, Wrote.use hi hd⟩
  · exact .inl h

theorem Wrote.item (hi : Writes inner) {i : Item} (h : Reads (item inner) s i t) :
    Wrote s i.marks t ∧ (i.open_ = true → t.Settled) := by
  unfold Grammar.item at h
  obtain ⟨d, s₁, hd, hrest⟩ := reads_bind.1 h
  rcases Wrote.declaration? hi hd with ⟨rfl, rfl⟩ | ⟨d, rfl, hw, hsettled⟩
  · obtain ⟨e, _, he, hpure⟩ := reads_bind.1 hrest
    obtain ⟨rfl, rfl⟩ := reads_pure.1 hpure
    have hw := hi.expression he
    rw [Item.marks]
    exact ⟨.node hw (hw.spans e.marks_isNode), fun _ => hi.ends he⟩
  · obtain ⟨rfl, rfl⟩ := reads_pure.1 hrest
    rw [Item.marks]
    exact ⟨.node hw (hw.spans d.marks_isNode), hsettled⟩

theorem Wrote.itemBlock [Consumes (inner .expression)] (hi : Writes inner) {b : Block}
    (h : Reads (itemBlock inner) s b t) : Wrote s b.marks t :=
  .block (fun h => (Wrote.item hi h).1) (fun h => (Wrote.item hi h).2) h

end ApiScript.Grammar
