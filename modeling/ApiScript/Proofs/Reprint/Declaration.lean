import ApiScript.Proofs.Reprint.Statements

set_option autoImplicit false
set_option relaxedAutoImplicit false
set_option synthInstance.maxSize 2000

/-!
Declarations are read again from what they are written as.
-/

namespace ApiScript.Grammar

open Piece Placed
open Node (Good)

variable {inner : Inner} {s t u : State} {d : Decl} {code bound : Bool} {indent n : Nat}
    {qs : List Piece}

private theorem State.Like.atString (h : s.Like u) : u.atString = s.atString := by
  have hrole (s : State) : s.atString = (s.current?.map Lexeme.role).any fun l =>
      decide (l = .string .interpolated "" ∨ l = .string .simple "") := by
    unfold State.atString
    rcases s.current? with _ | l
    · rfl
    · cases l with
      | string kind raw => cases kind <;> rfl
      | symbol s => cases s <;> rfl
      | _ => rfl
  rw [hrole, h.role, ← hrole]

section Readers

variable [∀ e, Advances (inner e)]

private theorem Echoes.operation (hi : Echoes inner) (h : Hears (operation inner) s d t)
    (hgood : Good code (.decl d)) (hlikes : Likes t qs) :
    Echo code (Grammar.operation inner) d n (d.layout indent ++ qs) n qs := by
  unfold Grammar.operation at h ⊢
  simp only [upToHere, hears_get, hears_bind, hears_ite, hears_pure, hears_expect, hears_ask,
    and_assoc, exists_and_left, exists_eq_left] at h
  obtain ⟨-, -, x, s₁, hx, -, -, protocol, s₂, hprotocol, -, -, method, s₃, hmethod, target, s₄,
    htarget, -, h⟩ := h
  have hlayout (query : Option StringLiteral) (metadata : Option Object) (span : Span) :
      (Decl.operation span x protocol method target query metadata).layout indent ++ qs =
        keyword .op :: space :: Piece.name x :: space :: symbol .assign :: space ::
          Piece.name protocol :: symbol .dot :: Piece.name method :: space ::
          (target.layout indent ++ (query.elim [] (fun q => space :: q.layout indent) ++
            (metadata.elim [] (fun o => space :: o.layout indent) ++ qs))) := by
    cases query <;> cases metadata <;> simp [Decl.layout]
  have hfront {Q : List Piece} {rest : Span → Name → Name → Name → StringLiteral → Parser Decl}
      (hgood : Good code (.string target))
      (hrest : ∀ span x' protocol' method' target', Same x x' → Same protocol protocol' →
      Same method method' →
        Same target target' → Echo code (rest span x' protocol' method' target') d n Q n qs) :
      Echo code (do
        let span ← expect (.keyword .op)
        let x' ← name .operationName
        let _ ← expect (.symbol .assign)
        let protocol' ← name .protocolName
        let _ ← expect (.symbol .dot)
        let method' ← name .methodName
        let target' ← Grammar.string inner .requestTarget
        rest span x' protocol' method' target') d n
        (keyword .op :: space :: Piece.name x :: space :: symbol .assign :: space ::
          Piece.name protocol :: symbol .dot :: Piece.name method :: space ::
          (target.layout indent ++ Q)) n qs :=
    Echo.keyword_space.bind fun span _ => (Echo.name_space hx.isIdentifier).bind fun x' hx' =>
      (Echo.symbol_space (by decide)).bind fun _ _ =>
      (Echo.name hprotocol.isIdentifier (bounds_symbol .dot)).bind fun protocol' hprotocol' =>
      (Echo.expect (l := .symbol .dot) (by simp)
          (.symbol_name (by decide) hmethod.isIdentifier)).bind fun _ _ =>
      (Echo.name_space hmethod.isIdentifier).bind fun method' hmethod' =>
      (hi.string htarget hgood indent n).1.bind fun target' htarget' =>
      hrest span x' protocol' method' target' hx' hprotocol' hmethod' htarget'
  have hback {query query' : Option StringLiteral} {metadata metadata' : Option Object}
    {x' protocol' method' : Name}
      {target' : StringLiteral} {span span' : Span} (hx : Same x x')
      (hprotocol : Same protocol protocol')
      (hmethod : Same method method') (htarget : Same target target') (hquery : Same query query')
      (hmetadata : Same metadata metadata') :
      Same (Decl.operation span x protocol method target query metadata)
        (.operation span' x' protocol' method' target' query' metadata') := by
    simp only [Same, respan, Decl.respan_operation]
      at hx hprotocol hmethod htarget hquery hmetadata ⊢
    rw [hx, hprotocol, hmethod, htarget, hquery, hmetadata]
  rcases h with ⟨hat, query, s₅, hquery, -, metadata, s₆, hmetadata, -, -, rfl, rfl⟩ |
    ⟨hat, -, metadata, s₅, hmetadata, -, -, rfl, rfl⟩
  · have hgoodQuery : Good code (.string query) := hgood.children _
      (by simp [Node.children, Node.childrenOfDecl, Node.ofOption])
    obtain ⟨hobject, -⟩ := hi.optionalObject hmetadata (fun o ho => hgood.children _
      (List.mem_append_right _ (Node.mem_ofOption ho))) hlikes indent n
    rw [hlayout]
    refine hfront (hgood.children _ (by simp [Node.children, Node.childrenOfDecl]))
      fun span x' protocol' method' target' hx' hprotocol' hmethod' htarget' =>
      .get_bind fun u hu => ?_
    refine .ite_pos (State.Shows.string hu.space).2
      (.space (((hi.string hquery hgoodQuery indent n).1).bind
      fun query' hquery' => ?_))
    exact .bind (.pure (congrArg some hquery')) fun query' hquery' =>
      hobject.bind fun metadata' hmetadata' =>
      Echo.ask.bind fun span' _ => .pure (hback hx' hprotocol' hmethod' htarget' hquery' hmetadata')
  · obtain ⟨hobject, hbehind⟩ := hi.optionalObject hmetadata (fun o ho => hgood.children _
      (List.mem_append_right _ (Node.mem_ofOption ho))) hlikes indent n
    rw [hlayout]
    refine hfront (hgood.children _ (by simp [Node.children, Node.childrenOfDecl]))
      fun span x' protocol' method' target' hx' hprotocol' hmethod' htarget' =>
      .get_bind fun u hu => ?_
    refine .ite_neg (by rwa [(hbehind u hu).atString]) ?_
    exact .bind (.pure (a := none) rfl) fun query' hquery' =>
      hobject.bind fun metadata' hmetadata' =>
      Echo.ask.bind fun span' _ => .pure (hback hx' hprotocol' hmethod' htarget' hquery' hmetadata')

private theorem Echoes.profile (hi : Echoes inner) (h : Hears (profile inner) s d t)
    (hgood : Good code (.decl d)) :
    Echo code (Grammar.profile inner) d n (d.layout indent ++ qs) n qs := by
  unfold Grammar.profile at h ⊢
  simp only [hears_bind, hears_pure, hears_expect, and_assoc, exists_and_left, exists_eq_left] at h
  obtain ⟨-, -, x, s₁, hx, fields, s₂, hfields, -, rfl, rfl⟩ := h
  rw [Decl.layout]
  simp only [List.cons_append, List.nil_append]
  refine Echo.keyword_space.bind fun _ _ => (Echo.name_space hx.isIdentifier).bind fun x' hx' =>
    (hi.object hfields (hgood.children _ (by simp [Node.children, Node.childrenOfDecl])) false
      indent n qs).1.bind
      fun fields' hfields' => .pure ?_
  simp only [Same, respan, Decl.respan] at hx' hfields' ⊢
  rw [hx', hfields']

private theorem Echoes.functionBody (hi : Echoes inner) {b : Body}
    (h : Hears (functionBody inner) s b t) (hgood : Good code (Node.ofBody b))
    (hbeyond : ∀ e, b = .expr e → Beyond true t qs) :
    Echo code (Grammar.functionBody inner) b n (b.layout indent ++ qs) n qs := by
  unfold Grammar.functionBody at h ⊢
  simp only [hears_get, hears_bind, hears_ite, hears_pure, hears_accept, hears_unexpected,
    and_false, or_false, and_assoc, exists_and_left, exists_eq_left] at h
  obtain ⟨more, s₁, _, ⟨_, rfl, rfl⟩ | ⟨_, rfl, rfl⟩, h⟩ := h
  · obtain ⟨-, e, s₂, he, -, rfl, rfl⟩ := h.resolve_right fun h => h.1 rfl
    have hbehind := hbeyond e rfl
    rw [Body.layout]
    refine .accept nofun (.symbol_detached (by decide) detached_space) (.ite_pos rfl (.space ?_))
    exact (hi.expression indent n he hgood hbehind.toEdge (hbehind.gap e)).1.bind fun e' he' =>
      .pure (congrArg Body.expr he')
  · obtain ⟨-, -, -, b, s₂, hb, -, rfl, rfl⟩ := h.resolve_left fun h => Bool.false_ne_true h.1
    have hecho := (hi.block indent n qs hb hgood).1
    rw [Body.layout]
    obtain ⟨ps, hps⟩ := b.layout_head indent qs
    rw [hps] at hecho ⊢
    refine .not_accept (fun u hu => by rw [hu.sees nofun]; decide) (.ite_neg Bool.false_ne_true ?_)
    refine .get_bind fun u hu => .ite_pos (by rw [hu.sees nofun]; decide) ?_
    exact hecho.bind fun b' hb' => .pure (congrArg Body.block hb')

private theorem Echoes.function (hi : Echoes inner) (h : Hears (function inner) s d t)
    (hgood : Good code (.decl d)) (hbeyond : Beyond d.open_ t qs) :
    Echo code (Grammar.function inner) d n (d.layout indent ++ qs) n qs := by
  unfold Grammar.function at h ⊢
  simp only [upToHere, hears_bind, hears_pure, hears_expect, hears_ask, and_assoc, exists_and_left,
    exists_eq_left] at h
  obtain ⟨-, -, x, s₁, hx, -, -, params, s₂, hparams, body, s₃, hbody, -, -, rfl, rfl⟩ := h
  have hbehind (e : Expr) (he : body = .expr e) : Beyond true t qs := by
    subst he
    exact hbeyond
  have hgoodBody : Good code (Node.ofBody body) :=
    hgood.children _ (by simp [Node.children, Node.childrenOfDecl])
  rw [Decl.layout]
  simp only [List.append_assoc, List.cons_append, List.nil_append]
  refine Echo.keyword_space.bind fun _ _ =>
    (Echo.name hx.isIdentifier (bounds_symbol .leftParen)).bind fun x' hx' =>
    (Echo.expect (l := .symbol .leftParen) (by simp) (.fixed (by decide) rfl)).bind fun _ _ =>
    (Echo.names hparams (fun _ => shown_closer (by simp)) (.fixed (by decide) rfl)).bind
        fun params' hparams' =>
    .space ((hi.functionBody hbody hgoodBody hbehind).bind fun body' hbody' =>
      Echo.ask.bind fun _ _ => .pure ?_)
  simp only [Same, respan, Decl.respan] at hx' hparams' hbody' ⊢
  rw [hx', hparams', hbody']

private theorem Echoes.binding (hi : Echoes inner) (h : Hears (binding inner) s d t)
    (hgood : Good code (.decl d)) (hbeyond : Beyond d.open_ t qs) :
    Echo code (Grammar.binding inner) d n (d.layout indent ++ qs) n qs := by
  unfold Grammar.binding at h ⊢
  simp only [hears_bind, hears_pure, hears_expect, and_assoc, exists_and_left, exists_eq_left] at h
  obtain ⟨-, -, p, s₁, hp, -, hassign, value, s₂, hvalue, -, rfl, rfl⟩ := h
  have hgoodPattern : Good code (.pattern p) := hgood.children _ List.mem_cons_self
  have hgoodValue : Good code (.expr value) :=
    hgood.children _ (List.mem_cons_of_mem _ List.mem_cons_self)
  have hbehind : Beyond true t qs := hbeyond
  rw [Decl.layout]
  simp only [List.append_assoc, List.cons_append, List.nil_append]
  refine Echo.keyword_space.bind fun _ _ =>
    (hi.pattern indent n hp hgoodPattern (edge_of_sees hassign (by decide))).bind fun p' hp' =>
    .space ((Echo.symbol_space (by decide)).bind fun _ _ =>
    (hi.expression indent n hvalue hgoodValue hbehind.toEdge (hbehind.gap value)).1.bind
      fun value' hvalue' => .pure ?_)
  simp only [Same, respan, Decl.respan] at hp' hvalue' ⊢
  rw [hp', hvalue']

end Readers

section Paths

theorem peek?_of_shows {l l' : Lexeme} (h : u.Shows (lexeme l :: lexeme l' :: qs))
    (hl : l ≠ .symbol .bar) (hl' : l' ≠ .symbol .bar) : u.peek? 1 = some l' := by
  rw [← u.peek?_advance]
  exact (h.advance hl).current? hl'

private theorem links_usePath (code : Bool) (n : Nat) (hqs : ∀ u : State, u.Shows qs →
    ¬(u.sees (.symbol .scope) ∧ u.peek? 1 ≠ some (.symbol .star) ∧
    u.peek? 1 ≠ some (.symbol .leftBrace))) (hbounds : Bounds (render qs).toList) : Links code (do
      let s ← get
      if s.sees (.symbol .scope) ∧ s.peek? 1 ≠ some (.symbol .star) ∧
          s.peek? 1 ≠ some (.symbol .leftBrace) then
        advance
        return some (← name .moduleNameOrEnd)
      else
        return none) [symbol .scope] n qs where
  productive h := by
    simp only [reads_bind, reads_get, reads_ite, reads_advance, reads_pure, and_assoc,
      exists_and_left, exists_eq_left, exists_const, reduceCtorEq, false_and, and_false,
      or_false] at h
    obtain ⟨hs, -, -, x, _, hx, -, rfl⟩ := h
    exact Nat.lt_of_le_of_lt (Advances.reads hx).length_le
      (State.advance_shorter (State.current?_of_sees hs))
  isIdentifier h := by
    simp only [hears_bind, hears_get, hears_ite, hears_advance, hears_pure, and_assoc,
      exists_and_left, exists_eq_left, exists_const, reduceCtorEq, false_and, and_false, or_false,
      Option.some.injEq] at h
    obtain ⟨_, _, _, _, _, y, _, hy, _, rfl, _⟩ := h
    exact hy.isIdentifier
  more {x ps} hx hbounds := by
    refine .get_bind fun u hu => .ite_pos ?_ ?_
    · have hpiece : u.Shows (symbol .scope :: lexeme (.identifier x.text) :: ps) := hx.piece ▸ hu
      rw [peek?_of_shows hpiece (by simp) (by simp), hu.sees (by simp)]
      simp
    · exact (Echo.advance (l := .symbol .scope) (by simp) (.symbol_name (by decide) hx)).bind
          fun _ _ =>
        (Echo.name hx hbounds).bind fun x' hx' => .pure (congrArg some hx')
  done := .get_bind fun u hu => .ite_neg (hqs u hu) (.pure rfl)
  bounds _ := bounds_symbol .scope
  ends := hbounds

private theorem echo_usePath (code : Bool) (n : Nat) {path : List Name} (h : Hears usePath s path t)
    (hqs : ∀ u : State, u.Shows qs → ¬(u.sees (.symbol .scope) ∧ u.peek? 1 ≠ some (.symbol .star) ∧
      u.peek? 1 ≠ some (.symbol .leftBrace))) (hbounds : Bounds (render qs).toList) :
    (∃ x rest, path = x :: rest ∧ x.IsIdentifier) ∧
      Echo code usePath path n (Piece.names [symbol .scope] path ++ qs) n qs := by
  unfold usePath at h ⊢
  obtain ⟨x, s₁, hx, h⟩ := hears_bind.1 h
  have hlinks := links_usePath code n hqs hbounds
  obtain ⟨rest, rfl, hrest⟩ := Echo.collect hlinks h
  rw [List.singleton_append, names_append]
  refine ⟨⟨x, rest, rfl, hx.isIdentifier⟩, (Echo.name hx.isIdentifier
    (bounds_behindName hlinks rest)).bind fun x' hx' => ?_⟩
  exact hrest [x'] (same_cons hx' rfl)

private theorem State.Shows.path {x : Name} {rest : List Name} (hx : x.IsIdentifier)
    (hscope : rest ≠ [] ∨ qs.head? = some (symbol .scope)) (hu : u.Shows
    (Piece.names [symbol .scope] (x :: rest) ++ qs)) :
    u.atIdentifier = true ∧ u.peek? 1 = some (.symbol .scope) := by
  have hbehind : ∃ ps, behindName [symbol .scope] rest qs = symbol .scope :: ps := by
    cases rest with
    | nil => exact List.head?_eq_some_iff.1 (hscope.resolve_left fun h => h rfl)
    | cons y rest => exact ⟨_, behindName_cons y⟩
  obtain ⟨ps, hps⟩ := hbehind
  rw [names_append, hx.piece, hps] at hu
  refine ⟨?_, peek?_of_shows hu nofun nofun⟩
  rw [State.atIdentifier, hu.current? nofun]

private theorem echo_importedNames {ns : List Name} (h : Hears importedNames s ns t) :
    Echo code importedNames ns n
      (symbol .leftBrace :: (Piece.names [symbol .comma, space] ns ++ symbol .rightBrace :: qs))
        n qs := by
  have hne := reads_importedNames_ne_nil h.reads
  unfold importedNames at h ⊢
  simp only [hears_get, hears_bind, hears_ite, hears_expect, hears_unexpected, and_false, false_or,
    and_assoc, exists_and_left, exists_eq_left] at h
  obtain ⟨-, -, -, -, hnames⟩ := h
  refine (Echo.expect (l := .symbol .leftBrace) nofun .leftBrace).bind fun _ _ =>
    .get_bind fun u hu => .ite_neg ?_
    (Echo.names hnames (fun _ => shown_closer nofun) .rightBrace)
  obtain ⟨x, ns, rfl⟩ := List.exists_cons_of_ne_nil hne
  rw [names_append] at hu
  rw [hu.sees (x.lexeme_ne_symbol _), beq_iff_eq]
  exact x.lexeme_ne_symbol _

private theorem echo_pathTarget (code : Bool) (indent n : Nat) {target : UseTarget}
    (h : Hears pathTarget s target t) (hformed : target.Formed)
    (hscope : ∀ u : State, u.Shows qs → u.sees (.symbol .scope) = false)
    (hbounds : Bounds (render qs).toList) :
    Echo code pathTarget target n (target.layout indent ++ qs) n qs ∧ ∀ u : State,
      u.Shows (target.layout indent ++ qs) → u.atIdentifier = true ∧
      u.peek? 1 = some (.symbol .scope) := by
  unfold pathTarget at h ⊢
  simp only [hears_bind, hears_ite, hears_pure, hears_accept] at h
  obtain ⟨path, s₁, hpath, more, s₂, ⟨_, ⟨_, rfl, rfl⟩ | ⟨_, rfl, rfl⟩⟩, h⟩ := h
  · obtain ⟨star, s₃, ⟨_, ⟨_, rfl, rfl⟩ | ⟨_, rfl, rfl⟩⟩, h⟩ := (h.resolve_right fun h => h.1 rfl).2
    · obtain ⟨-, -, rfl, rfl⟩ := h.resolve_right fun h => h.1 rfl
      rw [UseTarget.layout]
      simp only [List.append_assoc, List.cons_append, List.nil_append]
      have hqs (u : State) (hu : u.Shows (symbol .scope :: symbol .star :: qs)) :
          ¬(u.sees (.symbol .scope) ∧ u.peek? 1 ≠ some (.symbol .star) ∧
            u.peek? 1 ≠ some (.symbol .leftBrace)) :=
        fun h => h.2.1 (peek?_of_shows hu nofun nofun)
      obtain ⟨⟨x, rest, rfl, hx⟩, hecho⟩ := echo_usePath code n hpath hqs (bounds_symbol .scope)
      refine ⟨hecho.bind fun path' hpath' => ?_, fun u hu => hu.path hx (.inr rfl)⟩
      refine .accept nofun (.fixed (by decide) rfl) (.ite_pos rfl ?_)
      exact .accept nofun (.fixed (by decide) rfl)
        (.ite_pos rfl (.pure (congrArg UseTarget.glob hpath')))
    · obtain ⟨-, names, s₄, hnames, -, rfl, rfl⟩ := h.resolve_left fun h => Bool.false_ne_true h.1
      rw [UseTarget.layout]
      simp only [List.append_assoc, List.cons_append, List.nil_append]
      have hqs (u : State) (hu : u.Shows (symbol .scope :: symbol .leftBrace ::
          (Piece.names [symbol .comma, space] names ++ symbol .rightBrace :: qs))) :
          ¬(u.sees (.symbol .scope) ∧
          u.peek? 1 ≠ some (.symbol .star) ∧ u.peek? 1 ≠ some (.symbol .leftBrace)) :=
        fun h => h.2.2 (peek?_of_shows hu nofun nofun)
      obtain ⟨⟨x, rest, rfl, hx⟩, hecho⟩ := echo_usePath code n hpath hqs (bounds_symbol .scope)
      refine ⟨hecho.bind fun path' hpath' => ?_, fun u hu => hu.path hx (.inr rfl)⟩
      refine .accept nofun (.fixed (by decide) rfl) (.ite_pos rfl ?_)
      refine .not_accept (fun u hu => by rw [hu.sees nofun]; rfl) (.ite_neg Bool.false_ne_true ?_)
      refine (echo_importedNames hnames).bind fun names' hnames' => .pure ?_
      simp only [Same, respan, UseTarget.respan] at hpath' hnames' ⊢
      rw [hpath', hnames']
  · obtain ⟨-, -, rfl, rfl⟩ := h.resolve_left fun h => Bool.false_ne_true h.1
    rw [UseTarget.layout]
    have hqs (u : State) (hu : u.Shows qs) : ¬(u.sees (.symbol .scope) ∧
        u.peek? 1 ≠ some (.symbol .star) ∧ u.peek? 1 ≠ some (.symbol .leftBrace)) :=
      fun h => Bool.false_ne_true ((hscope u hu).symm.trans h.1)
    obtain ⟨⟨x, rest, rfl, hx⟩, hecho⟩ := echo_usePath code n hpath hqs hbounds
    refine ⟨hecho.bind fun path' hpath' => ?_, fun u hu => hu.path hx (.inl ?_)⟩
    · exact .not_accept hscope
        (.ite_neg Bool.false_ne_true (.pure (congrArg UseTarget.path hpath')))
    · rintro rfl
      exact absurd hformed (Nat.not_succ_le_self 1)

end Paths

section Statements

variable [∀ e, Advances (inner e)]

private theorem layout_use (span : Span) (target : UseTarget) (body : Option Block) :
    (Decl.use span target body).layout indent ++ qs = keyword .use :: space ::
      (target.layout indent ++ (body.elim [] (fun b => space :: b.layout indent) ++ qs)) := by
  cases body <;> simp [Decl.layout]

private theorem Echoes.useBody (hi : Echoes inner) (indent n : Nat) {start : Span}
    {target : UseTarget} (h : Hears (do
      let body ← if (← get).sees (.symbol .leftBrace) then
        pure (some (← inner .block)) else pure none
      return .use (← upToHere start) target body) s d t) (hgood : Good code (.decl d)) (hbeyond :
        Beyond d.open_ t qs) :
    ∃ body span, d = .use span target body ∧
      Beyond (Decl.use span target none).open_ s
        (body.elim [] (fun b => space :: b.layout indent) ++ qs) ∧
      ∀ start' target', Same target target' → Echo code (do
        let body ← if (← get).sees (.symbol .leftBrace) then
          pure (some (← inner .block)) else pure none
        return .use (← upToHere start') target' body) d n (body.elim []
          (fun b => space :: b.layout indent) ++
          qs) n qs := by
  simp only [upToHere, hears_get, hears_bind, hears_ite, hears_pure, hears_ask, and_assoc,
    exists_and_left, exists_eq_left] at h
  obtain ⟨-, ⟨hbrace, b, s₁, hb, -, -, -, rfl, rfl⟩ | ⟨hbrace, -, -, -, rfl, rfl⟩⟩ := h
  · have hgoodBlock : Good code (.block b) :=
      hgood.children _ (List.mem_append_right _ (Node.mem_ofOption rfl))
    obtain ⟨hecho, hlikes⟩ := hi.block indent n qs hb hgoodBlock
    obtain ⟨ps, hps⟩ := b.layout_head indent qs
    refine ⟨some b, _, rfl, ?_, fun start' target' htarget' => ?_⟩
    · rw [hps] at hlikes
      change Beyond _ s (space :: (b.layout indent ++ qs))
      rw [hps]
      refine ⟨edge_leftBrace hlikes, gap_space, ?_⟩
      rw [State.sees, State.current?_of_sees hbrace]
      rfl
    · refine .get_bind fun u hu => .ite_pos ?_ (.space (hecho.bind fun b' hb' => ?_))
      · have hu : u.Shows (symbol .leftBrace :: ps) := hps ▸ hu.space
        rw [hu.sees (by simp), beq_self_eq_true]
      · exact .bind (.pure (congrArg some hb')) fun body hbody => Echo.ask.bind fun _ _ => .pure (by
          simp only [Same, respan, Decl.respan_use] at htarget' hbody ⊢
          rw [htarget', hbody])
  · refine ⟨none, _, rfl, hbeyond, fun start' target' htarget' => ?_⟩
    refine .get_bind fun u hu => .ite_neg (by rwa [(hbeyond.likes u hu).sees rfl]) ?_
    exact .bind (.pure (a := none) rfl) fun body hbody => Echo.ask.bind fun _ _ => .pure (by
      simp only [Same, respan, Decl.respan_use] at htarget' hbody ⊢
      rw [htarget', hbody])

private theorem Echoes.use (hi : Echoes inner) (h : Hears (use inner) s d t)
    (hgood : Good code (.decl d)) (hbeyond : Beyond d.open_ t qs) :
    Echo code (Grammar.use inner) d n (d.layout indent ++ qs) n qs := by
  unfold Grammar.use at h ⊢
  obtain ⟨start, s₁, hstart, h⟩ := hears_bind.1 h
  rw [hears_get_bind, hears_ite] at h
  rcases h with ⟨hpath, h⟩ | ⟨hpath, h⟩
  · obtain ⟨target, s₂, htarget, h⟩ := hears_bind.1 h
    obtain ⟨body, span, hd, hbehind, hbody⟩ := hi.useBody indent n h hgood hbeyond
    have hformed := formed_of_reads_pathTarget hpath.2 htarget.reads
    obtain ⟨hecho, hshown⟩ := echo_pathTarget code indent n htarget hformed (fun u hu => by
      rw [(hbehind.likes u hu).sees rfl, hbehind.scope]) hbehind.detached.bounds
    rw [hd, layout_use, ← hd]
    exact Echo.keyword_space.bind fun start' _ => .get_bind fun u hu => .ite_pos (hshown u hu)
      (hecho.bind (hbody start'))
  · obtain ⟨e, s₂, he, h⟩ := hears_bind.1 h
    obtain ⟨target, s₃, htarget, h⟩ := hears_bind.1 h
    obtain ⟨-, rfl, rfl⟩ := hears_pure.1 htarget
    obtain ⟨body, span, hd, hbehind, hbody⟩ := hi.useBody indent n h hgood hbeyond
    have hgoodExpr : Good code (.expr e) := by
      rw [hd] at hgood
      exact hgood.children _ List.mem_cons_self
    obtain ⟨hecho, -⟩ := hi.expression indent n he hgoodExpr hbehind.toEdge (hbehind.gap e)
    rw [hd, layout_use, ← hd, UseTarget.layout]
    refine Echo.keyword_space.bind fun start' _ => .get_bind fun u hu =>
      .ite_neg ?_ (hecho.bind fun e' he' =>
      .bind (.pure (congrArg UseTarget.expr he')) (hbody start'))
    -- an expression with a scope mark behind its first name would end in front of it
    rintro ⟨hidentifier, hscope⟩
    obtain ⟨e', v, he', -, hv, -⟩ := hecho.answers hu
    have hsees := hi.qualified he' hidentifier hscope
    rw [(hbehind.likes v hv).sees rfl, hbehind.scope] at hsees
    cases hsees

private theorem current?_of_reads_expect {α : Type} {l : Lexeme} {f : Span → Parser α} {a : α}
    (h : Reads (expect l >>= f) s a t) : s.current? = some l := by
  obtain ⟨span, s₁, hstart, -⟩ := reads_bind.1 h
  exact State.current?_of_sees (reads_expect.1 hstart).1

private structure Declares (inner : Inner) (k : Keyword) (reader : Parser Decl) : Prop where
  keyword {s t : State} {d : Decl} : Reads reader s d t → s.current? = some (.keyword k)
  reads {s t : State} {d : Decl} : s.current? = some (.keyword k) → Reads reader s d t →
    Reads (declaration? inner) s
    (some d) t

omit [∀ e, Advances (inner e)] in
private theorem Declares.echo {k : Keyword} {reader : Parser Decl} (h : Declares inner k reader)
    (hd : Reads reader s d t) (hecho : Echo code reader d n (d.layout indent ++ qs) n qs) :
    Echo code (declaration? inner) (some d) n (d.layout indent ++ qs) n qs ∧
    Likes s (d.layout indent ++ qs) := by
  have hfirst {u : State} (hu : u.Shows (d.layout indent ++ qs)) :
      u.current? = some (.keyword k) := by
    obtain ⟨d', v, hd', -⟩ := hecho.answers hu
    exact h.keyword hd'
  refine ⟨⟨hecho.written, fun {u} hu => ?_⟩, ?_⟩
  · obtain ⟨d', v, hd', hsame, hrest⟩ := hecho.answers hu
    exact ⟨some d', v, h.reads (hfirst hu) hd', congrArg some hsame, hrest⟩
  · obtain ⟨k', ps, hps⟩ := d.layout_head indent qs
    obtain ⟨u, hu⟩ := Echo.exists_shows (d.layout indent ++ qs)
    have hk := hfirst hu
    rw [hps] at hu ⊢
    cases (hu.current? nofun).symm.trans hk
    exact likes_lexeme (by rw [h.keyword hd]; rfl) nofun nofun

theorem Echoes.declaration (hi : Echoes inner) (indent n : Nat)
    (h : Hears (declaration? inner) s (some d) t) (hgood : Good code (.decl d))
    (hbeyond : Beyond d.open_ t qs) :
    Echo code (declaration? inner) (some d) n (d.layout indent ++ qs) n qs ∧
      Likes s (d.layout indent ++ qs) := by
  obtain ⟨hread, hspelled, hlog⟩ := h
  unfold declaration? at hread
  rw [reads_get_bind] at hread
  split at hread
  case h_6 => cases (reads_pure.1 hread).1
  all_goals
    simp only [reads_bind, reads_pure, Option.some.injEq] at hread
    obtain ⟨_, _, hd, rfl, rfl⟩ := hread
    refine Declares.echo ⟨current?_of_reads_expect, fun hs h => ?_⟩ hd ?_
    · unfold declaration?
      rw [reads_get_bind, hs]
      exact reads_bind.2 ⟨_, _, h, reads_pure.2 ⟨rfl, rfl⟩⟩
  · exact hi.operation ⟨hd, hspelled, hlog⟩ hgood hbeyond.likes
  · exact hi.profile ⟨hd, hspelled, hlog⟩ hgood
  · exact hi.function ⟨hd, hspelled, hlog⟩ hgood hbeyond
  · exact hi.binding ⟨hd, hspelled, hlog⟩ hgood hbeyond
  · exact hi.use ⟨hd, hspelled, hlog⟩ hgood hbeyond

omit [∀ e, Advances (inner e)] in
theorem reads_declaration_none : Reads (declaration? inner) s none t ↔
    t = s ∧ ∀ k ∈ [Keyword.op, .profile, .fn, .let_, .use], s.current? ≠ some (.keyword k) := by
  unfold declaration?
  rw [reads_get_bind]
  split
  case h_6 hop hprofile hfn hlet huse =>
    simp only [reads_pure, true_and, List.mem_cons, List.not_mem_nil, or_false, forall_eq_or_imp,
      forall_eq]
    exact ⟨fun h => ⟨h, hop, hprofile, hfn, hlet, huse⟩, fun h => h.1⟩
  all_goals
    simp only [reads_bind, reads_pure, reduceCtorEq, false_and, and_false, exists_false, false_iff,
    not_and]
    refine fun _ h => h _ ?_ ‹s.current? = _›
    decide

omit [∀ e, Advances (inner e)] in
theorem echo_declaration_none (h : Reads (declaration? inner) s none t) (hlikes : Likes s qs) :
    Echo code (declaration? inner) none n qs n qs where
  written := id
  answers {u} hu := by
    obtain ⟨-, hnone⟩ := reads_declaration_none.1 h
    exact ⟨none, u, reads_declaration_none.2 ⟨rfl, fun k hk hcurrent =>
      hnone k hk ((hlikes u hu).current?_back hcurrent rfl)⟩, rfl, hu, rfl⟩

end Statements

end ApiScript.Grammar
