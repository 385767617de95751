import ApiScript.Proofs.Reprint.Run

set_option autoImplicit false
set_option relaxedAutoImplicit false
set_option synthInstance.maxSize 2000

/-!
Primary forms of expressions are read again from what they are written as.
-/

namespace ApiScript

open Piece Placed
open Node (Good)

private theorem Expr.layoutAll_eq (indent : Nat) (es : List Expr) :
    Expr.layoutAll indent es = commaSeparated (Expr.layout indent) es := by
  induction es with
  | nil => rfl
  | cons e es ih => rw [layoutAll, commaSeparated, ih]

namespace Grammar

variable {inner : Inner} {s t u : State} {e : Expr} {code : Bool} {indent n : Nat} {qs : List Piece}

section Ranges

private theorem layout_exprRange (span : Span) (start stop : Option Literal) (inclusive : Bool) :
    (Expr.range span start stop inclusive).layout indent ++ qs = start.elim []
    (Literal.layout indent) ++
      Piece.rangeMark inclusive :: (stop.elim [] (Literal.layout indent) ++ qs) := by
  cases start <;> cases stop <;> simp [Expr.layout]

private theorem same_exprRange {span span' : Span} {start start' stop stop' : Option Literal}
    {inclusive inclusive' : Bool} (hstart : Same start start') (hstop : Same stop stop')
    (h : Same inclusive inclusive') :
    Same (Expr.range span start stop inclusive) (Expr.range span' start' stop' inclusive') := by
  simp only [Same, respan, Expr.respan_range] at hstart hstop h ⊢
  rw [hstart, hstop, h]

private theorem integer?_of_same {l l' : Literal} (h : Same l l') :
    l'.integer?.isSome = l.integer?.isSome := by
  cases l <;> cases l' <;> first | rfl | cases h

private theorem reads_primary_of_atLiteral (hs : s.atLiteral = true)
    (h : Reads (literalOrRange inner) s e t) :
    Reads (primary inner) s e t := by
  obtain ⟨l, hl, hbegins⟩ := State.current?_of_atLiteral hs
  unfold primary
  rw [reads_get_bind]
  split
  case h_14 =>
    rw [if_pos hs]
    exact h
  all_goals
    rename_i heq
    cases hl.symm.trans heq
    rcases hbegins with hbegins | hbegins <;> cases hbegins

variable [∀ e, Advances (inner e)]

private theorem Echoes.literalOrRange (hi : Echoes inner) (h : Hears (literalOrRange inner) s e t)
    (hgood : Good code (.expr e)) (hedge : Edge true t qs) :
    Echo code (primary inner) e n (e.layout indent ++ qs) n qs ∧
      Likes s (e.layout indent ++ qs) := by
  suffices hall : Echo code (Grammar.literalOrRange inner) e n (e.layout indent ++ qs) n qs ∧
      ∃ l sign found ps, Respelled inner code s l indent sign found ∧
        e.layout indent ++ qs = l.layout indent ++ ps by
    obtain ⟨hecho, l, sign, found, ps, hrespelled, hlayout⟩ := hall
    refine ⟨hecho.of_reads fun u hu _ _ => reads_primary_of_atLiteral ?_, ?_⟩
    · rw [hlayout] at hu
      exact (hrespelled.shown hu).1
    · rw [hlayout]
      exact hrespelled.likes
  unfold Grammar.literalOrRange at h ⊢
  simp only [upToHere, hears_get, hears_bind, hears_ite, hears_pure, hears_ask, and_assoc,
    exists_and_left, exists_eq_left] at h
  obtain ⟨l, s₁, hl, -, ⟨hinteger, hmark, inclusive, s₂, hinclusive, h⟩ | ⟨hmark, -, rfl, rfl⟩⟩ := h
  · obtain ⟨-, rfl⟩ := reads_rangeMark.1 hinclusive.reads
    obtain ⟨-, ⟨hat, stop, s₃, hstop, -, -, -, rfl, rfl⟩ | ⟨hat, -, -, -, rfl, rfl⟩⟩ := h
    · obtain ⟨_, _, hfirst⟩ :=
        hi.respelled hl (hgood.children _ (List.mem_append_left _ List.mem_cons_self)) indent
      obtain ⟨_, _, hsecond⟩ := hi.respelled hstop (hgood.children _
        (List.mem_append_right _ List.mem_cons_self)) indent
      rw [layout_exprRange]
      refine ⟨(hfirst.echo detached_rangeMark).bind fun l' hl' => .get_bind fun v hv =>
        .ite_pos ?_ ?_, _, _, _, _, hfirst, rfl⟩
      · exact ⟨by rwa [integer?_of_same hl'], hv.rangeMark.2⟩
      · refine (Echo.rangeMark (written_rangeMark_begins hsecond.begins)).bind fun inclusive' hi' =>
          .get_bind fun w hw => .ite_pos (by rwa [hsecond.atInteger hw])
            ((hsecond.echo hedge.detached).bind fun stop' hstop' => ?_)
        exact .bind (.pure (a := some stop') rfl) fun stop'' hstop'' =>
          Echo.ask.bind fun _ _ => .pure
          (same_exprRange (congrArg some hl') ((congrArg some hstop').trans hstop'') hi')
    · obtain ⟨_, _, hfirst⟩ :=
        hi.respelled hl (hgood.children _ (List.mem_append_left _ List.mem_cons_self)) indent
      rw [layout_exprRange]
      refine ⟨(hfirst.echo detached_rangeMark).bind fun l' hl' => .get_bind fun v hv =>
        .ite_pos ?_ ?_, _, _, _, _, hfirst, rfl⟩
      · exact ⟨by rwa [integer?_of_same hl'], hv.rangeMark.2⟩
      · refine (Echo.rangeMark (written_rangeMark hedge.detached)).bind fun inclusive' hi' =>
          .get_bind fun w hw =>
            .ite_neg (by rw [hedge.not_atInteger (by simpa using hat) hw]; decide) ?_
        exact .bind (.pure (a := none) rfl) fun stop'' hstop'' => Echo.ask.bind fun _ _ => .pure
          (same_exprRange (congrArg some hl') hstop'' hi')
  · obtain ⟨_, _, hrespelled⟩ :=
      hi.respelled hl (hgood.children _ (List.mem_singleton_self _)) indent
    rw [Expr.layout]
    refine ⟨(hrespelled.echo hedge.detached).bind fun l' hl' => .get_bind fun v hv =>
      .ite_neg ?_ (.pure ?_), _, _, _, _, hrespelled, rfl⟩
    · rwa [integer?_of_same hl', hedge.atRangeMark hv]
    · simp only [Same, respan, Expr.respan] at hl' ⊢
      rw [hl']

private theorem Echoes.openRange (hi : Echoes inner) (hs : s.atRangeMark = true)
    (h : Hears (openRange inner) s e t) (hgood : Good code (.expr e)) (hedge : Edge true t qs) :
    Echo code (primary inner) e n (e.layout indent ++ qs) n qs ∧
    Likes s (e.layout indent ++ qs) := by
  unfold Grammar.openRange at h
  simp only [hears_get, hears_bind, hears_ite, hears_pure, hears_ask, hears_unexpected, and_false,
    or_false, and_assoc, exists_and_left, exists_eq_left] at h
  obtain ⟨-, inclusive, s₁, hinclusive, -, hat, stop, s₂, hstop, -, rfl, rfl⟩ := h
  obtain ⟨_, _, hrespelled⟩ := hi.respelled hstop (hgood.children _ List.mem_cons_self) indent
  rw [layout_exprRange]
  refine ⟨.of_reads (q := Grammar.openRange inner) ?_ fun u hu e' v he' =>
    ?_, likes_rangeMark hs hinclusive.reads⟩
  · refine Echo.ask.bind fun start' _ =>
      (Echo.rangeMark (written_rangeMark_begins hrespelled.begins)).bind
      fun inclusive' hi' => .get_bind fun v hv => .ite_pos (by rwa [hrespelled.atInteger hv])
      ((hrespelled.echo hedge.detached).bind fun stop' hstop' => .pure ?_)
    exact @same_exprRange _ _ none none (some stop) (some stop') _ _ rfl (congrArg some hstop') hi'
  · unfold primary
    rw [reads_get_bind, hu.rangeMark.1]
    cases inclusive <;> exact he'

end Ranges

section Plain

private theorem echo_environment (h : Hears environment s e t)
    (hbounds : Bounds (render qs).toList) :
    Echo code environment e n (e.layout indent ++ qs) n qs ∧ Likes s (e.layout indent ++ qs) ∧
      ∃ ps, e.layout indent ++ qs = keyword .env :: ps := by
  unfold environment at h ⊢
  simp only [hears_bind, hears_pure, hears_expect, and_assoc, exists_and_left, exists_eq_left] at h
  obtain ⟨-, hs, -, -, x, s₁, hx, -, rfl, rfl⟩ := h
  rw [Expr.layout]
  refine ⟨(Echo.expect (l := .keyword .env) (by simp) (.keyword (bounds_symbol .dot))).bind
      fun start' _ =>
    (Echo.expect (l := .symbol .dot) (by simp) (.symbol_name (by decide) hx.isIdentifier)).bind
        fun _ _ =>
    (Echo.name hx.isIdentifier hbounds).bind fun x' hx' => .pure ?_,
    likes_lexeme (l := .keyword .env) (by rw [State.current?_of_sees hs]; rfl) (by simp)
      (by simp), _, rfl⟩
  simp only [Same, respan, Expr.respan] at hx' ⊢
  rw [hx']

variable [∀ e, Advances (inner e)]

private theorem Echoes.parenthesized (hi : Echoes inner) (h : Hears (parenthesized inner) s e t)
    (hgood : Good code (.expr e)) :
    Echo code (Grammar.parenthesized inner) e n (e.layout indent ++ qs) n qs ∧
    Likes s (e.layout indent ++ qs) ∧
      ∃ ps, e.layout indent ++ qs = symbol .leftParen :: ps := by
  unfold Grammar.parenthesized at h ⊢
  simp only [hears_bind, hears_pure, hears_expect, hears_close, and_assoc, exists_and_left,
    exists_eq_left] at h
  obtain ⟨-, hs, e, s₁, he, -, hclose, -, rfl, rfl⟩ := h
  have hclosed (ps : List Piece) : Closed s₁ (symbol .rightParen :: ps) :=
    closed_of_sees (by decide) hclose
  have hclosing (opener : Span) : Echo code (close .parenthesis false opener) .nowhere n
    (symbol .rightParen :: qs) n qs :=
    .close (by simp) (.fixed (by decide) rfl)
  rw [Expr.layout]
  simp only [List.append_assoc, List.cons_append, List.nil_append]
  refine ⟨(Echo.expect (l := .symbol .leftParen) (by simp) (.fixed (by decide) rfl)).bind
      fun opener _ =>
    (hi.expression indent n he (hgood.children _ List.mem_cons_self) (hclosed _).edge
      ((hclosed _).gap _)).1.bind
      fun e' he' => (hclosing opener).bind fun closer _ => .pure ?_,
    likes_lexeme (l := .symbol .leftParen) (by rw [State.current?_of_sees hs]; rfl) (by simp)
      (by simp), _, rfl⟩
  simp only [Same, respan, Expr.respan] at he' ⊢
  rw [he']

omit [∀ e, Advances (inner e)] in
private theorem Echoes.separates (hi : Echoes inner) {delimiter : Delimiter} {trailing : Bool}
    {es : List Expr} (hgood : ∀ e ∈ es, Good code (.expr e))
    (hdelimiter : delimiter = .parenthesis ∧ trailing = false ∨ delimiter ∈ [.bracket, .brace]) :
    Separates code delimiter trailing (inner .expression) (Expr.layout indent) Closed es n qs := by
  refine separates_closed hdelimiter
    (fun he hear hclosed =>
      (hi.expression indent n hear (hgood _ he) hclosed.edge (hclosed.gap _)).1) fun h => ?_
  rw [Bool.eq_false_iff]
  intro hcloser
  have hstart := hi.starts h
  rw [State.atExpressionStart, State.current?_of_sees hcloser] at hstart
  rcases hdelimiter with ⟨rfl, -⟩ | hdelimiter
  · cases hstart
  · simp only [List.mem_cons, List.not_mem_nil, or_false] at hdelimiter
    rcases hdelimiter with rfl | rfl <;> cases hstart

private theorem Echoes.array (hi : Echoes inner) (h : Hears (array inner) s e t)
    (hgood : Good code (.expr e)) :
    Echo code (Grammar.array inner) e n (e.layout indent ++ qs) n qs ∧
    Likes s (e.layout indent ++ qs) ∧
      ∃ ps, e.layout indent ++ qs = symbol .leftBracket :: ps := by
  unfold Grammar.array at h ⊢
  simp only [hears_bind, hears_pure, hears_expect, and_assoc, exists_and_left, exists_eq_left] at h
  obtain ⟨-, hs, r, s₁, hr, -, rfl, rfl⟩ := h
  have hall : Separates code .bracket true (inner .expression) (Expr.layout indent) Closed
      r.1 n qs :=
    hi.separates (fun e he => hgood.children _ (List.mem_map_of_mem he)) (.inr (by decide))
  rw [Expr.layout, Expr.layoutAll_eq]
  simp only [List.append_assoc, List.cons_append, List.nil_append]
  refine ⟨(Echo.expect (l := .symbol .leftBracket) (by simp) (.fixed (by decide) rfl)).bind
      fun opener _ =>
    (Echo.delimited hall hr (.fixed (by decide) rfl)).bind fun r' hr' => .pure ?_,
    likes_lexeme (l := .symbol .leftBracket) (by rw [State.current?_of_sees hs]; rfl) (by simp)
      (by simp), _, rfl⟩
  have hsame : Same r.1 r'.1 := congrArg Prod.fst hr'
  simp only [Same, respan, Expr.respan, Expr.respanAll_eq_map] at hsame ⊢
  rw [hsame]

theorem Echoes.arguments (hi : Echoes inner) (indent n : Nat) (qs : List Piece)
    {r : List Expr × Span} (h : Hears (arguments inner) s r t)
    (hgood : ∀ e ∈ r.1, Good code (.expr e)) : Echo code (Grammar.arguments inner) r n
      (symbol .leftParen :: (Expr.layoutAll indent r.1 ++ symbol .rightParen :: qs)) n qs := by
  unfold Grammar.arguments at h ⊢
  simp only [hears_bind, hears_expect, and_assoc, exists_and_left, exists_eq_left] at h
  obtain ⟨-, -, hr⟩ := h
  rw [Expr.layoutAll_eq]
  exact (Echo.expect (l := .symbol .leftParen) nofun (.fixed (by decide) rfl)).bind fun opener _ =>
    .delimited (hi.separates hgood (.inl ⟨rfl, rfl⟩)) hr (.fixed (by decide) rfl)

variable [Consumes (inner .expression)]

private theorem Echoes.braced (hi : Echoes inner) (h : Hears (braced inner) s e t)
    (hgood : Good code (.expr e)) :
    Echo code (Grammar.braced inner) e n (e.layout indent ++ qs) n qs ∧
    Likes s (e.layout indent ++ qs) ∧
      ∃ ps, e.layout indent ++ qs = symbol .leftBrace :: ps := by
  unfold Grammar.braced at h ⊢
  simp only [hears_get, hears_bind, hears_ite, hears_pure, and_assoc, exists_and_left,
    exists_eq_left] at h
  obtain ⟨-, ⟨hat, o, s₁, ho, -, rfl, rfl⟩ | ⟨hat, b, s₁, hb, -, rfl, rfl⟩⟩ := h
  · obtain ⟨hecho, hlikes⟩ := hi.object ho (hgood.children _ List.mem_cons_self) true indent n qs
    have hfields := fields_of_reads_object hat ho.reads
    rw [Expr.layout]
    refine ⟨.get_bind fun u hu =>
      .ite_pos ?_ (hecho.bind fun o' ho' => .pure (congrArg Expr.object ho')), hlikes,
      o.layout_head indent qs⟩
    obtain ⟨o', v, ho', hsame, -⟩ := hecho.answers hu
    refine atObjectStart_of_object ho' fun hnil => hfields ?_
    obtain ⟨fields, span⟩ := o
    obtain ⟨fields', span'⟩ := o'
    simp only [Same, respan, Object.respan, Field.respanAll_eq_map, Object.mk.injEq] at hsame
    have hsame := hsame.1
    obtain rfl : fields' = [] := hnil
    exact List.map_eq_nil_iff.1 hsame
  · obtain ⟨hecho, hlikes⟩ := hi.itemBlock hb (hgood.children _ List.mem_cons_self) indent n qs
    rw [Expr.layout]
    refine ⟨.get_bind fun u hu =>
      .ite_neg ?_ (hecho.bind fun b' hb' => .pure (congrArg Expr.block hb')), hlikes,
      b.layout_head indent qs⟩
    obtain ⟨b', v, hb', -, -, hlog⟩ := hecho.answers hu
    rw [hi.told hb' hlog]
    decide

end Plain

section Conditionals

private def alternativeLayout (indent : Nat) : Alternative → List Piece
  | .block b => b.layout indent
  | .conditional c => c.layout indent

private theorem layout_conditional (condition : Expr) (consequence : Block)
    (alternative : Option Alternative) (span : Span) :
    (Conditional.mk condition consequence alternative span).layout indent ++ qs =
      keyword .if_ :: space :: (condition.layout indent ++ space :: (consequence.layout indent ++
        (alternative.elim []
        (fun a => space :: keyword .else_ :: space :: alternativeLayout indent a) ++ qs))) := by
  rcases alternative with _ | ⟨_ | _⟩ <;> simp [Conditional.layout, alternativeLayout]

private theorem Conditional.layout_head (indent : Nat) (c : Conditional) (qs : List Piece) :
    ∃ ps, c.layout indent ++
    qs = keyword .if_ :: ps := by
  obtain ⟨condition, consequence, alternative, span⟩ := c
  exact ⟨_, layout_conditional ..⟩

variable [∀ e, Advances (inner e)]

private theorem Echoes.alternative? (hi : Echoes inner) (indent n : Nat) {a : Option Alternative}
    (h : Hears (alternative? inner) s a t)
    (hgood : ∀ a' ∈ a, Good code (Node.ofAlternative a')) (hlikes : Likes t qs) : Echo code
    (Grammar.alternative? inner) a n
      (a.elim [] (fun a => space :: keyword .else_ :: space :: alternativeLayout indent a) ++ qs)
        n qs := by
  unfold Grammar.alternative? at h ⊢
  simp only [hears_get, hears_bind, hears_ite, hears_pure, hears_accept, and_assoc, exists_and_left,
    exists_eq_left] at h
  obtain ⟨more, s₁, _, ⟨helse, rfl, rfl⟩ | ⟨helse, rfl, rfl⟩, h⟩ := h
  · obtain ⟨-, -, h⟩ := h.resolve_right fun h => h.1 rfl
    rcases h with ⟨hif, c, s₂, hc, -, rfl, rfl⟩ | ⟨hif, b, s₂, hb, -, rfl, rfl⟩
    · have hecho := hi.alternative indent n hc (hgood _ rfl) hlikes
      rw [Option.elim_some, alternativeLayout, List.cons_append, List.cons_append, List.cons_append]
      refine .space
        (.accept (by simp) (.keyword_detached detached_space) (.ite_pos rfl (.space ?_)))
      refine .get_bind fun u hu => .ite_pos ?_ (hecho.bind fun c' hc' =>
        .pure (congrArg (fun c => some (Alternative.conditional c)) hc'))
      obtain ⟨ps, hps⟩ := Conditional.layout_head indent c qs
      rw [hps] at hu
      rw [hu.sees (by simp), beq_self_eq_true]
    · have hecho := (hi.block indent n qs hb (hgood _ rfl)).1
      rw [Option.elim_some, alternativeLayout, List.cons_append, List.cons_append, List.cons_append]
      refine .space
        (.accept (by simp) (.keyword_detached detached_space) (.ite_pos rfl (.space ?_)))
      refine .get_bind fun u hu => .ite_neg ?_ (hecho.bind fun b' hb' =>
        .pure (congrArg (fun b => some (Alternative.block b)) hb'))
      obtain ⟨ps, hps⟩ := b.layout_head indent qs
      rw [hps] at hu
      rw [hu.sees (by simp)]
      decide
  · obtain ⟨-, -, rfl, rfl⟩ := h.resolve_left fun h => Bool.false_ne_true h.1
    refine .not_accept (fun u hu => ?_) (.ite_neg Bool.false_ne_true (.pure rfl))
    rw [(hlikes u hu).sees rfl]
    simpa using helse

theorem Echoes.conditional (hi : Echoes inner) (indent n : Nat) {c : Conditional}
    (h : Hears (conditional inner) s c t) (hgood : Good code (.conditional c))
    (hlikes : Likes t qs) :
    Echo code (Grammar.conditional inner) c n (c.layout indent ++ qs) n qs ∧
    Likes s (c.layout indent ++ qs) := by
  unfold Grammar.conditional at h ⊢
  simp only [upToHere, hears_bind, hears_pure, hears_expect, hears_ask, and_assoc, exists_and_left,
    exists_eq_left] at h
  obtain ⟨-, hs, condition, s₁, hcondition, consequence, s₂, hconsequence, alternative, s₃,
    halternative, -, -, rfl, rfl⟩ := h
  have hgoodCondition : Good code (.expr condition) := hgood.children _ List.mem_cons_self
  have hbehind := hi.alternative? indent n halternative
    (fun a ha => hgood.children _ (List.mem_append_right _ (Node.mem_ofOption ha))) hlikes
  obtain ⟨hblock, hbrace⟩ := hi.block indent n _ hconsequence
    (hgood.children _ (List.mem_cons_of_mem _ List.mem_cons_self))
  obtain ⟨ps, hps⟩ := consequence.layout_head indent
    (alternative.elim []
    (fun a => space :: keyword .else_ :: space :: alternativeLayout indent a) ++ qs)
  have hedge : Edge true s₁ (space :: (consequence.layout indent ++
      (alternative.elim []
      (fun a => space :: keyword .else_ :: space :: alternativeLayout indent a) ++ qs))) := by
    rw [hps] at hbrace ⊢
    exact edge_leftBrace hbrace
  rw [layout_conditional]
  refine ⟨Echo.keyword_space.bind fun start' _ =>
    (hi.expression indent n hcondition hgoodCondition hedge
    (gap_space _)).1.bind
    fun condition' hcondition' => .space (hblock.bind fun consequence' hconsequence' => hbehind.bind
    fun alternative' halternative' => Echo.ask.bind fun _ _ => .pure ?_),
    likes_lexeme (l := .keyword .if_) (by rw [State.current?_of_sees hs]; rfl) (by simp) (by simp)⟩
  simp only [Same, respan, Conditional.respan_mk] at hcondition' hconsequence' halternative' ⊢
  rw [hcondition', hconsequence', halternative']

end Conditionals

section Choices

private def armLayout (indent : Nat) : Arm → List Piece
  | ⟨pattern, guard, body, _⟩ => pattern.layout indent ++
      (guard.elim [] (fun g => space :: keyword .if_ :: space :: g.layout indent) ++
        space :: symbol .fatArrow :: space :: body.layout indent)

private theorem Choice.layoutArms_eq (indent : Nat) (arms : List Arm) :
    Choice.layoutArms indent arms = arms.flatMap fun a =>
      line indent :: (armLayout indent a ++ [symbol .comma]) := by
  induction arms with
  | nil => rfl
  | cons arm arms ih =>
    obtain ⟨pattern, guard, body, span⟩ := arm
    rw [List.flatMap_cons, ← ih]
    cases guard <;> simp [Choice.layoutArms, armLayout]

variable [∀ e, Advances (inner e)]

omit [∀ e, Advances (inner e)] in
private theorem Echoes.armBody (hi : Echoes inner) {p p' : Pattern} {guard guard' : Option Expr}
    {body : Expr} (h : Hears (inner .expression) s body t) (hgood : Good code (.expr body))
    (hclosed : Closed t qs) (hp : Same p p') (hguard : Same guard guard') (span : Span) :
    Echo code (do
      let _ ← expect (.symbol .fatArrow)
      let body ← inner .expression
      return (⟨p', guard', body, p'.span.merge body.span⟩ : Arm)) ⟨p, guard, body, span⟩ n
      (symbol .fatArrow :: space :: (body.layout indent ++ qs)) n qs := by
  refine (Echo.symbol_space (by decide)).bind fun _ _ =>
    (hi.expression indent n h hgood hclosed.edge (hclosed.gap _)).1.bind fun body' hbody => .pure ?_
  simp only [Same, respan, Arm.respan_mk] at hp hguard hbody ⊢
  rw [hp, hguard, hbody]

private theorem Echoes.arm (hi : Echoes inner) (indent n : Nat) {a : Arm}
    (h : Hears (arm inner) s a t) (hgood : Good code (.arm a)) (hclosed : Closed t qs) :
    Echo code (Grammar.arm inner) a n (armLayout indent a ++ qs) n qs := by
  unfold Grammar.arm at h ⊢
  simp only [hears_bind, hears_ite, hears_pure, hears_accept, hears_expect, and_assoc,
    exists_and_left, exists_eq_left] at h
  obtain ⟨p, s₁, hp, more, s₂, _, ⟨hif, rfl, rfl⟩ | ⟨hif, rfl, rfl⟩, h⟩ := h
  · obtain ⟨-, g, s₃, hg, -, -, harrow, body, s₄, hbody, -, rfl, rfl⟩ :=
      h.resolve_right fun h => h.1 rfl
    have hgoodGuard : Good code (.expr g) := hgood.children _
      (List.mem_cons_of_mem _ (List.mem_append_left _ List.mem_cons_self))
    rw [armLayout]
    simp only [Option.elim_some, List.append_assoc, List.cons_append]
    refine (hi.pattern indent n hp (hgood.children _ List.mem_cons_self)
      (edge_of_sees hif (by decide))).bind fun p' hp' =>
      .space (.accept (by simp) (.keyword_detached detached_space) (.ite_pos rfl (.space ?_)))
    refine (hi.expression indent n hg hgoodGuard (edge_of_sees harrow (by decide))
      (gap_space _)).1.bind
      fun g' hg' => ?_
    exact .bind (.pure (a := some g) (congrArg some hg')) fun guard' hguard' =>
      .space (hi.armBody hbody
      (hgood.children _ (List.mem_append_right _ List.mem_cons_self)) hclosed hp' hguard' _)
  · obtain ⟨-, -, -, harrow, body, s₄, hbody, -, rfl, rfl⟩ :=
      h.resolve_left fun h => Bool.false_ne_true h.1
    rw [armLayout]
    simp only [Option.elim_none, List.append_assoc, List.cons_append, List.nil_append]
    refine (hi.pattern indent n hp (hgood.children _ List.mem_cons_self)
      (edge_of_sees harrow (by decide))).bind fun p' hp' =>
      .space (.not_accept (fun u hu => ?_) (.ite_neg Bool.false_ne_true ?_))
    · rw [hu.sees (by simp)]
      rfl
    · exact .bind (.pure (a := none) rfl) fun guard' hguard' => hi.armBody hbody
        (hgood.children _ (List.mem_append_right _ List.mem_cons_self)) hclosed hp' hguard' _

/-- The pieces behind an arm: a comma and other arms, up to the end of all. -/
private abbrev behindArm (indent : Nat) (arms : List Arm) (qs : List Piece) : List Piece :=
  symbol .comma :: (Choice.layoutArms indent arms ++ qs)

omit [∀ e, Advances (inner e)] in
private theorem behindArm_cons (a : Arm) (arms : List Arm) : behindArm indent (a :: arms) qs =
    symbol .comma :: line indent :: (armLayout indent a ++ behindArm indent arms qs) := by
  rw [behindArm, Choice.layoutArms_eq, List.flatMap_cons, ← Choice.layoutArms_eq]
  simp only [List.append_assoc, List.cons_append, List.nil_append]

omit [∀ e, Advances (inner e)] in
private theorem Echoes.not_closer_of_arm (hi : Echoes inner) {a : Arm}
    (h : Reads (Grammar.arm inner) s a t) :
    s.sees Delimiter.brace.closer = false := by
  obtain ⟨p, s₁, hp, -⟩ := reads_bind.1 h
  exact hi.begins .brace hp

private theorem Echoes.behindArms (hi : Echoes inner) (indent n : Nat) {arms : List Arm}
    (hgood : ∀ a ∈ arms, Good code (.arm a))
    (h : Continues Delimiter.brace.closer true (Grammar.arm inner) s arms t) (hs : s.Spelled)
    (hlog : t.log = s.log) (hend : t.sees Delimiter.brace.closer = true)
    (hqs : ∀ u : State, u.Shows qs → u.sees Delimiter.brace.closer = true) :
    Closed s (behindArm indent arms qs) ∧
    (Written code n qs → Written code n (behindArm indent arms qs)) ∧
      ∀ u : State, u.Shows (behindArm indent arms qs) → ∃ arms' v,
        Continues Delimiter.brace.closer true (Grammar.arm inner) u arms' v ∧ Same arms arms' ∧
        v.Shows qs ∧ v.log = u.log := by
  have hnone {s : State} (hrole : s.current?.map Lexeme.role = some (Lexeme.symbol .comma).role) :
      Closed s (behindArm indent [] qs) ∧
      (Written code n qs → Written code n (behindArm indent [] qs)) ∧
      ∀ u : State, u.Shows (behindArm indent [] qs) → ∃ arms' v,
        Continues Delimiter.brace.closer true (Grammar.arm inner) u arms' v ∧ Same [] arms' ∧
        v.Shows qs ∧ v.log = u.log := by
    refine ⟨⟨.comma, by decide, _, rfl, hrole⟩, .fixed (by decide) rfl, fun u hu => ?_⟩
    have hadvance : u.advance.Shows qs := hu.advance nofun
    exact ⟨[], u.advance, .comma (by rw [hu.sees nofun, beq_self_eq_true]) rfl (hqs _ hadvance),
      rfl, hadvance, u.log_advance⟩
  induction h with
  | bare => exact hnone (by rw [State.current?_of_sees hend]; rfl)
  | comma hcomma => exact hnone (by rw [State.current?_of_sees hcomma]; rfl)
  | @more s s₁ t a arms hcomma hopen ha rest ih =>
    obtain ⟨hear, hs₁, hlog₁⟩ :=
      Hears.of_reads ha rest.reaches hs.advance (hlog.trans s.log_advance.symm)
    obtain ⟨hclosed, hwritten, hanswers⟩ :=
      ih (fun a ha => hgood a (List.mem_cons_of_mem _ ha)) hs₁ hlog₁ hend
    have hecho := hi.arm indent n hear (hgood a List.mem_cons_self) hclosed
    rw [behindArm_cons]
    refine ⟨closed_of_sees (by decide) hcomma, fun h =>
      ((hecho.written (hwritten h)).line indent).fixed
      (by decide) rfl, fun u hu => ?_⟩
    obtain ⟨a', v, ha', hsame, hv, hlogv⟩ := hecho.answers (hu.advance nofun).line
    obtain ⟨arms', w, harms', hsames, hw, hlogw⟩ := hanswers v hv
    refine ⟨a' :: arms', w, .more (by rw [hu.sees nofun, beq_self_eq_true]) ?_ ha' harms',
      same_cons hsame hsames, hw, ?_⟩
    · rw [hi.not_closer_of_arm ha']
      exact fun h => Bool.false_ne_true h.2
    · rw [hlogw, hlogv, State.log_advance]

private theorem Echoes.arms (hi : Echoes inner) (indent n : Nat) (qs : List Piece) {opener : Span}
    {r : List Arm × Span} (h : Hears (delimited .brace true opener (Grammar.arm inner)) s r t)
    (hgood : ∀ a ∈ r.1, Good code (.arm a)) (opener' : Span) :
    Echo code (delimited .brace true opener' (Grammar.arm inner)) r (n + 1)
      (Choice.layoutArms (indent + 2) r.1 ++ line indent :: symbol .rightBrace :: qs) n qs := by
  obtain ⟨hread, hs, hlog⟩ := h
  have hshown {u : State} (hu : u.Shows (line indent :: symbol .rightBrace :: qs)) :
      u.sees Delimiter.brace.closer = true := by
    rw [hu.line.sees nofun]
    exact beq_self_eq_true _
  have hwritten (hqs : Written code n qs) :
      Written code (n + 1) (line indent :: symbol .rightBrace :: qs) :=
    hqs.rightBrace.line indent
  rcases reads_delimited.1 hread with ⟨_, rfl, rfl⟩ | ⟨_, a, s₁, arms, s₂, ha, harms,
    hend, rfl, rfl⟩
  · refine ⟨hwritten, fun {u} hu => ?_⟩
    exact ⟨([], u.currentSpan), u.advance, reads_delimited.2 (.inl ⟨hshown hu, rfl, rfl⟩), rfl,
      hu.line.advance nofun, u.log_advance⟩
  · rw [State.log_advance] at hlog
    obtain ⟨hear, hs₁, hlog₁⟩ := Hears.of_reads ha harms.reaches hs hlog
    obtain ⟨hclosed, hbehind, hanswers⟩ := hi.behindArms (indent + 2) (n + 1)
      (fun a ha => hgood a (List.mem_cons_of_mem _ ha)) harms hs₁ hlog₁ hend fun u hu => hshown hu
    have hecho := hi.arm (indent + 2) (n + 1) hear (hgood a List.mem_cons_self) hclosed
    have hlayout :
        Choice.layoutArms (indent + 2) (a :: arms) ++ line indent :: symbol .rightBrace :: qs =
          line (indent + 2) :: (armLayout (indent + 2) a ++
            behindArm (indent + 2) arms (line indent :: symbol .rightBrace :: qs)) :=
      List.cons.inj (behindArm_cons a arms) |>.2
    rw [hlayout]
    refine ⟨fun hqs => (hecho.written (hbehind (hwritten hqs))).line _, fun {u} hu => ?_⟩
    obtain ⟨a', v, ha', hsame, hv, hlogv⟩ := hecho.answers hu.line
    obtain ⟨arms', w, harms', hsames, hw, hlogw⟩ := hanswers v hv
    refine ⟨(a' :: arms', w.currentSpan), w.advance, reads_delimited.2
      (.inr ⟨?_, a', v, arms', w, ha', harms', hshown hw,
      rfl, rfl⟩), same_prod (same_cons hsame hsames) rfl, hw.line.advance nofun, ?_⟩
    · rw [hi.not_closer_of_arm ha']
      exact Bool.false_ne_true
    · rw [State.log_advance, hlogw, hlogv]

private theorem layout_choice (subject : Expr) (arms : List Arm) (span : Span) :
    (Choice.mk subject arms span).layout indent ++ qs =
      keyword .match_ :: space :: (subject.layout indent ++ space :: symbol .leftBrace ::
        (Choice.layoutArms (indent + 2) arms ++ line indent :: symbol .rightBrace :: qs)) := by
  rw [Choice.layout]
  simp only [List.append_assoc, List.cons_append, List.nil_append]

/-- The brace behind the subject of a match is not taken for that of an object: a pattern that
begins with a key does not go on with a colon. -/
private theorem Echoes.likes_arms (hi : Echoes inner) {opener : Span} {r : List Arm × Span}
    {ps : List Piece} (hbrace : s.sees (.symbol .leftBrace) = true)
    (h : Reads (delimited .brace true opener (Grammar.arm inner)) s.advance r t)
    (hecho : Echo code (delimited .brace true opener (Grammar.arm inner)) r (n + 1) ps n qs) :
    Likes s (symbol .leftBrace :: ps) := by
  refine likes_leftBrace hbrace fun u hu hobject => ?_
  obtain ⟨r', v, hr', hsame, -⟩ := hecho.answers (hu.advance nofun)
  have hpeek (s : State) : s.advance.current? = s.peek? 1 := s.peek?_advance 0
  rw [State.atOptionalObject, Bool.or_eq_true, Bool.and_eq_true, beq_iff_eq] at hobject
  have hempty : u.advance.sees (.symbol .rightBrace) = true := by
    rcases hobject with hobject | ⟨-, hclose⟩
    · rcases reads_delimited.1 hr' with ⟨hclose, -⟩ | ⟨-, a, v₁, _, _, ha, -⟩
      · exact hclose
      · obtain ⟨-, hkey, hcolon⟩ := State.atObjectStart_iff.1 hobject
        simp only [Grammar.arm, reads_bind, reads_accept, reads_expect, reads_ite, reads_pure] at ha
        obtain ⟨p, v₂, hp, more, v₃, hif, h⟩ := ha
        have hsees := hi.keyed hp hkey hcolon
        have hcurrent := State.current?_of_sees hsees
        rcases hif with ⟨hif, -, -⟩ | ⟨-, rfl, rfl⟩
        · cases (State.current?_of_sees hif).symm.trans hcurrent
        · obtain ⟨-, _, _, ⟨-, rfl⟩, _, _, ⟨harrow, -⟩, -⟩ :=
            h.resolve_left fun h => Bool.false_ne_true h.1
          cases (State.current?_of_sees harrow).symm.trans hcurrent
    · rw [State.sees, hpeek, hclose, beq_self_eq_true]
  rcases reads_delimited.1 hr' with ⟨-, rfl, -⟩ | ⟨hopen, -⟩
  · have hnil : r.1 = [] := List.map_eq_nil_iff.1 (congrArg Prod.fst hsame)
    rcases reads_delimited.1 h with ⟨hclose, -⟩ | ⟨-, _, _, _, _, -, -, -, rfl, -⟩
    · have hclose' := State.current?_of_sees hclose
      rw [hpeek] at hclose'
      rw [State.atOptionalObject, hbrace, hclose']
      simp [Delimiter.closer]
    · cases hnil
  · exact absurd hempty hopen

private theorem Echoes.choice (hi : Echoes inner) (indent n : Nat) (qs : List Piece) {c : Choice}
    (h : Hears (choice inner) s c t) (hgood : Good code (.choice c)) :
    Echo code (Grammar.choice inner) c n (c.layout indent ++ qs) n qs ∧
    Likes s (c.layout indent ++ qs) ∧
      ∃ ps, c.layout indent ++ qs = keyword .match_ :: ps := by
  unfold Grammar.choice at h ⊢
  simp only [hears_bind, hears_pure, hears_expect, and_assoc, exists_and_left, exists_eq_left] at h
  obtain ⟨-, hs, subject, s₁, hsubject, -, hbrace, r, s₂, hr, -, rfl, rfl⟩ := h
  have harms := hi.arms indent n qs hr
    (fun a ha => hgood.children _ (List.mem_cons_of_mem _ (List.mem_map_of_mem ha)))
  have hedge : Edge true s₁ _ := edge_leftBrace (hi.likes_arms hbrace hr.reads (harms _))
  rw [layout_choice]
  refine ⟨Echo.keyword_space.bind fun start' _ =>
    (hi.expression indent n hsubject (hgood.children _ List.mem_cons_self) hedge
      (gap_space _)).1.bind
    fun subject' hsubject' =>
      .space ((Echo.expect (l := .symbol .leftBrace) nofun .leftBrace).bind fun opener' _ =>
    (harms opener').bind fun r' hr' => .pure ?_),
    likes_lexeme (l := .keyword .match_) (by rw [State.current?_of_sees hs]; rfl) nofun
      nofun, _, rfl⟩
  have hsame : Same r.1 r'.1 := congrArg Prod.fst hr'
  simp only [Same, respan, Choice.respan, Arm.respanAll_eq_map] at hsubject' hsame ⊢
  rw [hsubject', hsame]

end Choices

section Lambdas

private theorem State.Shows.current?_bar {ps : List Piece} (hu : u.Shows (symbol .bar :: ps)) :
    u.current? = some (.symbol .bar) ∨ u.current? = some (.symbol .or) := by
  by_cases hbar : ps.head? = some (symbol .bar)
  · obtain ⟨ps, rfl⟩ := List.head?_eq_some_iff.1 hbar
    exact .inr hu.bars.1
  · exact .inl (hu.bar hbar).1

private theorem likes_bar {ps : List Piece}
    (hs : s.current?.map Lexeme.role = some (.symbol .bar)) :
    Likes s (symbol .bar :: ps) := by
  intro u hu
  have hcurrent := hu.current?_bar
  refine ⟨?_, fun hobject => ?_⟩
  · rcases hcurrent with hcurrent | hcurrent <;>
    · rw [hs, hcurrent]
      rfl
  · have hbrace : u.sees (.symbol .leftBrace) = false := by
      rcases hcurrent with hcurrent | hcurrent <;>
      · rw [State.sees, hcurrent]
        rfl
    rw [State.atOptionalObject, State.atObjectStart, hbrace] at hobject
    cases hobject

private theorem written_bar_space {ps : List Piece} (h : Written code n (space :: ps)) :
    Written code n (symbol .bar :: space :: ps) := by
  refine h.bar nofun ?_
  rw [render_cons]
  rintro c ⟨⟩
  decide

private theorem isIdentifier_of_names {delimiter : Delimiter} {opener : Span}
    {expected : Expectation} {x : Name} {xs : List Name}
    (h : Hears (names delimiter opener expected) s (x :: xs) t) : x.IsIdentifier := by
  simp only [names, hears_bind, hears_pure] at h
  obtain ⟨⟨_, closer⟩, s₁, hlist, -, rfl, -⟩ := h
  rcases reads_delimited.1 hlist.reads with ⟨-, hnil, -⟩ | ⟨-, y, _, ys, _, hy, -, -, hcons, -⟩
  · cases hnil
  · cases hcons
    exact hlist.spelled.current? (reads_name.1 hy).1

private theorem echo_lambdaParameters (code : Bool) (n : Nat) (qs : List Piece) {params : List Name}
    (h : Hears lambdaParameters s params t) : Echo code lambdaParameters params n
      (symbol .bar :: (Piece.names [symbol .comma, space] params ++ symbol .bar :: space :: qs)) n
        qs ∧
      s.current?.map Lexeme.role = some (.symbol .bar) := by
  unfold lambdaParameters at h
  simp only [hears_bind, hears_ite, hears_pure, hears_accept, hears_expect, and_assoc,
    exists_and_left, exists_eq_left] at h
  obtain ⟨more, s₁, _, ⟨hor, rfl, rfl⟩ | ⟨hor, rfl, rfl⟩, h⟩ := h
  all_goals
    have hempty :
    Echo code lambdaParameters [] n (symbol .bar :: symbol .bar :: space :: qs) n qs :=
      ⟨fun hqs => hqs.space.bars, fun {u} hu => by
        refine ⟨[], u.advance,
          reads_bind.2 ⟨true, u.advance, reads_accept.2 (.inl ⟨?_, rfl, rfl⟩), reads_pure.2
          ⟨rfl, rfl⟩⟩, rfl, hu.bars.2.space, u.log_advance⟩
        rw [State.sees, hu.bars.1, beq_self_eq_true]⟩
  · obtain ⟨-, -, rfl, rfl⟩ := h.resolve_right fun h => h.1 rfl
    exact ⟨hempty, by rw [State.current?_of_sees hor]; rfl⟩
  · obtain ⟨-, -, hbar, hparams⟩ := h.resolve_left fun h => Bool.false_ne_true h.1
    refine ⟨?_, by rw [State.current?_of_sees hbar]; rfl⟩
    cases params with
    | nil => exact hempty
    | cons x xs =>
      have hnames (opener' : Span) : Echo code (names .bar opener' .lambdaParameter) (x :: xs) n
          (Piece.names [symbol .comma, space] (x :: xs) ++ symbol .bar :: space :: qs) n
            (space :: qs) :=
        .names hparams (fun u hu => hu.bar (by rintro ⟨⟩)) written_bar_space
      have hx := isIdentifier_of_names hparams
      have hfirst :
          (Piece.names [symbol .comma, space] (x :: xs) ++ symbol .bar :: space :: qs).head? ≠
            some (symbol .bar) := by
        rw [names_append, List.head?_cons, hx.piece]
        rintro ⟨⟩
      refine ⟨fun hqs => .bar hfirst ?_ ((hnames .nowhere).written hqs.space), fun {u} hu => ?_⟩
      · obtain ⟨c, cs, htext, hstart⟩ :=
          hx.render (behindName [symbol .comma, space] xs (symbol .bar :: space :: qs))
        rw [names_append, htext]
        rintro d ⟨⟩
        constructor <;>
        · rintro rfl
          cases hstart
      · obtain ⟨hcurrent, hadvance⟩ := hu.bar hfirst
        obtain ⟨params', v, hparams', hsame, hv, hlog⟩ := (hnames u.currentSpan).answers hadvance
        have hnone : ¬u.sees (.symbol .or) = true := by
          rw [State.sees, hcurrent]
          decide
        have hread : Reads lambdaParameters u params' v := by
          refine reads_bind.2 ⟨false, u, reads_accept.2 (.inr ⟨hnone, rfl, rfl⟩), reads_bind.2
            ⟨u.currentSpan, u.advance, reads_expect.2 ⟨?_, rfl, rfl⟩, hparams'⟩⟩
          rw [State.sees, hcurrent, beq_self_eq_true]
        exact ⟨params', v, hread, hsame, hv.space, hlog.trans u.log_advance⟩

private theorem Echoes.lambda (hi : Echoes inner) [∀ e, Advances (inner e)] (indent n : Nat)
    (h : Hears (lambda inner) s e t) (hgood : Good code (.expr e)) (hedge : Edge true t qs)
    (hgap : Gap e qs) :
    Echo code (Grammar.lambda inner) e n (e.layout indent ++ qs) n qs ∧
    Likes s (e.layout indent ++ qs) ∧
      ∃ ps, e.layout indent ++ qs = symbol .bar :: ps := by
  unfold Grammar.lambda at h ⊢
  simp only [hears_bind, hears_pure, hears_ask, hears_operand, and_assoc, exists_and_left,
    exists_eq_left] at h
  obtain ⟨-, params, s₁, hparams, -, hstart, -, body, s₂, hbody, -, rfl, rfl⟩ := h
  have hchild : Good code (.expr body) :=
    hgood.children _ (List.mem_append_right _ List.mem_cons_self)
  obtain ⟨hecho, hlikes⟩ := hi.expression indent n hbody hchild hedge hgap
  obtain ⟨hfirst, hrole⟩ := echo_lambdaParameters code n (body.layout indent ++ qs) hparams
  rw [Expr.layout]
  simp only [List.append_assoc, List.cons_append, List.nil_append]
  refine ⟨Echo.ask.bind fun start' _ => hfirst.bind fun params' hparams' =>
    (Echo.operand fun u hu => ?_).bind fun _ _ => hecho.bind fun body' hbody' => .pure ?_,
      likes_bar hrole, _, rfl⟩
  · rw [(hlikes u hu).atExpressionStart, hstart]
  · simp only [Same, respan, Expr.respan] at hparams' hbody' ⊢
    rw [hparams', hbody']

end Lambdas

section Emissions

private theorem State.Shows.touches {l l' : Lexeme} (h : u.Shows (lexeme l :: lexeme l' :: qs))
    (hl : l ≠ .symbol .bar) (hl' : l' ≠ .symbol .bar) :
    u.currentSpan.touches u.advance.currentSpan = true := by
  obtain ⟨offset, hafter⟩ := h
  rw [joined_cons (fun heq => hl (Piece.lexeme.inj heq)),
    joined_cons (fun heq => hl' (Piece.lexeme.inj heq))] at hafter
  have hrest := State.after_advance hafter
  simp only [State.currentSpan, hafter, hrest, Piece.tokens, Span.touches, beq_self_eq_true]

private theorem not_against {l : Lexeme} {x : Symbol} (hgap : Gap e qs)
    (htail : e.tail.takes x = true) (hx : x ∉ [.bar, .or]) (hu : u.Shows (lexeme l :: qs))
    (hl : l ≠ .symbol .bar) :
    ¬(u.advance.sees (.symbol x) = true ∧ u.currentSpan.touches u.advance.currentSpan = true) := by
  rintro ⟨hsees, htouches⟩
  have hhead := hu.head_of_touches hl htouches (State.current?_of_sees hsees) (by simpa using hx)
  rw [hgap x hhead] at htail
  cases htail

private theorem written_format {x : Name} (hx : x.IsIdentifier)
    (hbounds : Bounds (render qs).toList) (h : Written code n qs) :
    Written code n (keyword .emit :: symbol .dot :: Piece.name x :: qs) := by
  have hname : Written code n (Piece.name x :: qs) := by
    rw [hx.piece]
    exact h.identifier hx hbounds
  exact (hname.symbol_name (by decide) hx).keyword (bounds_symbol .dot)

private theorem State.Shows.sees_emit (h : u.Shows (keyword .emit :: qs)) :
    u.sees (.keyword .emit) = true := by
  rw [h.sees nofun, beq_self_eq_true]

private theorem State.Shows.format {x : Name} (hx : x.IsIdentifier)
    (h : u.Shows (keyword .emit :: symbol .dot :: Piece.name x :: qs)) :
    u.advance.sees (.symbol .dot) = true ∧ u.currentSpan.touches u.advance.currentSpan = true ∧
      Reads (name .emitFormat) u.advance.advance ⟨x.text, u.advance.advance.currentSpan⟩
        u.advance.advance.advance ∧
      u.advance.advance.Shows (lexeme (.identifier x.text) :: qs) := by
  rw [hx.piece] at h
  have hdot := h.advance nofun
  have hname := hdot.advance nofun
  refine ⟨?_, h.touches nofun nofun, reads_name.2 ⟨hname.current? nofun, rfl, rfl⟩, hname⟩
  rw [hdot.sees nofun, beq_self_eq_true]

variable [∀ e, Advances (inner e)]

private theorem Echoes.emission (hi : Echoes inner) (h : Hears (emission inner) s e t)
    (hgood : Good code (.expr e)) (hedge : Edge true t qs) (hgap : Gap e qs) :
    Echo code (Grammar.emission inner) e n (e.layout indent ++ qs) n qs ∧
    Likes s (e.layout indent ++ qs) ∧
      ∃ ps, e.layout indent ++ qs = keyword .emit :: ps := by
  unfold Grammar.emission at h
  simp only [hears_get, hears_bind, hears_ite, hears_pure, hears_expect, hears_advance,
    hears_unexpected, and_false, false_or, and_assoc, exists_and_left, exists_eq_left,
    exists_const] at h
  obtain ⟨_, hs, _, ⟨hdot, htouches, _, x, s₁, hx, _, h⟩ | ⟨_, _, _, rfl, rfl⟩⟩ := h
  all_goals
    have hlike (ps : List Piece) : Likes s (keyword .emit :: ps) :=
      likes_lexeme (l := .keyword .emit) (by rw [State.current?_of_sees hs]; rfl)
        (by simp) (by simp)
  · rcases h with ⟨hparen, htouches', args, s₂, hargs, _, rfl, rfl⟩ | ⟨hparen, _, rfl, rfl⟩
    · have hecho := hi.arguments indent n qs hargs fun a ha =>
        hgood.children _ (List.mem_append_right _ (List.mem_map_of_mem ha))
      rw [Expr.layout.eq_def]
      simp only [List.append_assoc, List.cons_append, List.nil_append]
      refine ⟨⟨fun hqs => written_format hx.isIdentifier (bounds_symbol .leftParen)
          (hecho.written hqs), fun {u} hu =>
        ?_⟩, hlike _, _, rfl⟩
      obtain ⟨hdot', hagainst, hname, hshows⟩ := hu.format hx.isIdentifier
      obtain ⟨args', v, hargs', hsame, hv, hlog⟩ := hecho.answers (hshows.advance (by simp))
      have hparen' := (hshows.advance (by simp)).sees (by simp) (.symbol .leftParen)
      refine ⟨.emit ((u.currentSpan.merge u.advance.advance.currentSpan).merge args'.2)
        (some ⟨x.text, u.advance.advance.currentSpan⟩) (some args'.1), v, ?_, ?_, hv,
          by simp only [hlog, State.log_advance]⟩
      · refine reads_bind.2 ⟨u.currentSpan, u.advance, reads_expect.2 ⟨hu.sees_emit, rfl, rfl⟩, ?_⟩
        rw [reads_get_bind, if_pos ⟨hdot', hagainst⟩]
        refine reads_bind.2 ⟨(), _, reads_advance.2 rfl, reads_bind.2 ⟨_, _, hname, ?_⟩⟩
        rw [reads_get_bind,
          if_pos ⟨by rw [hparen', beq_self_eq_true], hshows.touches (by simp) (by simp)⟩]
        exact reads_bind.2 ⟨args', v, hargs', reads_pure.2 ⟨rfl, rfl⟩⟩
      · have hargs : Same args.1 args'.1 := congrArg Prod.fst hsame
        simp only [Same, respan, Expr.respan_emit, Option.map_some, Name.respan] at hargs ⊢
        rw [hargs]
    · rw [Expr.layout.eq_def]
      simp only [List.cons_append, List.nil_append]
      refine ⟨⟨written_format hx.isIdentifier hedge.detached.bounds, fun {u} hu => ?_⟩,
        hlike _, _, rfl⟩
      obtain ⟨hdot', hagainst, hname, hshows⟩ := hu.format hx.isIdentifier
      refine ⟨.emit (u.currentSpan.merge u.advance.advance.currentSpan)
        (some ⟨x.text, u.advance.advance.currentSpan⟩) none,
        u.advance.advance.advance, ?_, ?_, hshows.advance (by simp), by
        simp only [State.log_advance]⟩
      · refine reads_bind.2 ⟨u.currentSpan, u.advance, reads_expect.2 ⟨hu.sees_emit, rfl, rfl⟩, ?_⟩
        rw [reads_get_bind, if_pos ⟨hdot', hagainst⟩]
        refine reads_bind.2 ⟨(), _, reads_advance.2 rfl, reads_bind.2 ⟨_, _, hname, ?_⟩⟩
        rw [reads_get_bind, if_neg (not_against hgap rfl (by decide) hshows (by simp))]
        exact reads_pure.2 ⟨rfl, rfl⟩
      · simp only [Same, respan, Expr.respan_emit, Option.map_some, Option.map_none, Name.respan]
  · rw [Expr.layout.eq_def]
    simp only [List.cons_append, List.nil_append]
    refine ⟨⟨.keyword hedge.detached.bounds, fun {u} hu => ?_⟩, hlike _, _, rfl⟩
    refine ⟨.emit u.currentSpan none none, u.advance, ?_, ?_, hu.advance (by simp), u.log_advance⟩
    · refine reads_bind.2 ⟨u.currentSpan, u.advance, reads_expect.2 ⟨hu.sees_emit, rfl, rfl⟩, ?_⟩
      rw [reads_get_bind, if_neg (not_against hgap rfl (by decide) hu (by simp)),
        if_neg (not_against hgap rfl (by decide) hu (by simp))]
      exact reads_pure.2 ⟨rfl, rfl⟩
    · simp only [Same, respan, Expr.respan_emit, Option.map_none]

end Emissions

section Primary

variable [∀ e, Advances (inner e)] [Consumes (inner .expression)]

theorem Echoes.primary (hi : Echoes inner) (indent n : Nat) (h : Hears (primary inner) s e t)
    (hgood : Good code (.expr e)) (hedge : Edge true t qs) (hgap : Gap e qs) :
    Echo code (Grammar.primary inner) e n (e.layout indent ++ qs) n qs ∧
    Likes s (e.layout indent ++ qs) := by
  obtain ⟨hread, hs, hlog⟩ := h
  have htakes {q : Parser Expr} {l : Lexeme} (hl : l ≠ .symbol .bar)
      (hq : ∀ {u v : State} {b : Expr}, u.current? = some l → Reads q u b v →
      Reads (Grammar.primary inner) u b v)
      (h : Echo code q e n (e.layout indent ++ qs) n qs ∧ Likes s (e.layout indent ++ qs) ∧
        ∃ ps, e.layout indent ++ qs = lexeme l :: ps) :
      Echo code (Grammar.primary inner) e n (e.layout indent ++ qs) n qs ∧
          Likes s (e.layout indent ++ qs) := by
    obtain ⟨hecho, hlikes, ps, hps⟩ := h
    exact ⟨hecho.of_reads fun u hu b v => hq ((hps ▸ hu).current? hl), hlikes⟩
  unfold Grammar.primary at hread
  rw [reads_get_bind] at hread
  split at hread
  · rename_i text hcurrent
    obtain ⟨x, s₁, hx, hrest⟩ := reads_bind.1 hread
    obtain ⟨rfl, rfl⟩ := reads_pure.1 hrest
    have htext := (reads_name.1 hx).1
    have hx : x.IsIdentifier := Hears.isIdentifier ⟨hx, hs, hlog⟩
    rw [Expr.layout, List.singleton_append]
    refine ⟨.get_bind fun u hu => ?_, ?_⟩
    · rw [hx.piece] at hu
      rw [hu.current? (by simp)]
      exact (Echo.name hx hedge.detached.bounds).bind fun x' hx' => .pure (congrArg Expr.name hx')
    · rw [hx.piece]
      exact likes_lexeme (by rw [htext]; rfl) (by simp) (by simp)
  · refine htakes (l := .keyword .env) (by simp) (fun hu h => ?_)
      (echo_environment ⟨hread, hs, hlog⟩ hedge.detached.bounds)
    unfold Grammar.primary
    rw [reads_get_bind, hu]
    exact h
  · rename_i hcurrent
    exact hi.openRange (by rw [State.atRangeMark, State.sees, hcurrent]; rfl)
      ⟨hread, hs, hlog⟩ hgood hedge
  · rename_i hcurrent
    exact hi.openRange (by rw [State.atRangeMark, State.sees, State.sees, hcurrent]; rfl)
      ⟨hread, hs, hlog⟩ hgood hedge
  · refine htakes (l := .symbol .leftParen) (by simp) (fun hu h => ?_)
      (hi.parenthesized ⟨hread, hs, hlog⟩ hgood)
    unfold Grammar.primary
    rw [reads_get_bind, hu]
    exact h
  · refine htakes (l := .symbol .leftBracket) (by simp) (fun hu h => ?_)
      (hi.array ⟨hread, hs, hlog⟩ hgood)
    unfold Grammar.primary
    rw [reads_get_bind, hu]
    exact h
  · refine htakes (l := .symbol .leftBrace) (by simp) (fun hu h => ?_)
      (hi.braced ⟨hread, hs, hlog⟩ hgood)
    unfold Grammar.primary
    rw [reads_get_bind, hu]
    exact h
  · obtain ⟨c, s₁, hc, hrest⟩ := reads_bind.1 hread
    obtain ⟨rfl, rfl⟩ := reads_pure.1 hrest
    obtain ⟨hecho, hlikes⟩ := hi.conditional indent n ⟨hc, hs, hlog⟩
      (hgood.children _ List.mem_cons_self) hedge.likes
    rw [Expr.layout]
    refine ⟨.get_bind fun u hu => ?_, hlikes⟩
    obtain ⟨ps, hps⟩ := Conditional.layout_head indent c qs
    rw [hps] at hu
    rw [hu.current? (by simp)]
    exact hecho.bind fun c' hc' => .pure (congrArg Expr.conditional hc')
  · obtain ⟨c, s₁, hc, hrest⟩ := reads_bind.1 hread
    obtain ⟨rfl, rfl⟩ := reads_pure.1 hrest
    obtain ⟨hecho, hlikes, ps, hps⟩ := hi.choice indent n qs ⟨hc, hs, hlog⟩
      (hgood.children _ List.mem_cons_self)
    rw [Expr.layout]
    refine ⟨.get_bind fun u hu => ?_, hlikes⟩
    rw [hps] at hu
    rw [hu.current? (by simp)]
    exact hecho.bind fun c' hc' => .pure (congrArg Expr.choice hc')
  iterate 2
    · obtain ⟨hecho, hlikes, ps, hps⟩ := hi.lambda indent n ⟨hread, hs, hlog⟩ hgood hedge hgap
      refine ⟨.get_bind fun u hu => ?_, hlikes⟩
      rw [hps] at hu
      rcases hu.current?_bar with hcurrent | hcurrent <;>
      · rw [hcurrent]
        exact hecho
  · obtain ⟨r, s₁, hr, hrest⟩ := reads_bind.1 hread
    obtain ⟨rfl, rfl⟩ := reads_pure.1 hrest
    obtain ⟨hecho, hlikes⟩ := hi.run indent n ⟨hr, hs, hlog⟩
      (hgood.children _ List.mem_cons_self) hedge.likes hedge.detached.bounds
    rw [Expr.layout]
    refine ⟨.get_bind fun u hu => ?_, hlikes⟩
    obtain ⟨ps, hps⟩ := r.layout_head indent qs
    rw [hps] at hu
    rw [hu.current? (by simp)]
    exact hecho.bind fun r' hr' => .pure (congrArg Expr.run hr')
  · refine htakes (l := .keyword .emit) (by simp) (fun hu h => ?_)
      (hi.emission ⟨hread, hs, hlog⟩ hgood hedge hgap)
    unfold Grammar.primary
    rw [reads_get_bind, hu]
    exact h
  · simp only [reads_ite, reads_unexpected, and_false, or_false] at hread
    exact hi.literalOrRange ⟨hread.2, hs, hlog⟩ hgood hedge

end Primary

end Grammar

end ApiScript
