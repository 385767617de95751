import ApiScript.Proofs.Reprint.Declaration

set_option autoImplicit false
set_option relaxedAutoImplicit false
set_option synthInstance.maxSize 2000

/-!
Items are read again from what they are written as, and so are blocks of them.
-/

namespace ApiScript.Grammar

open Piece Placed
open Node (Good)

variable {inner : Inner} {s t u : State} {i : Item} {d : Decl} {code : Bool} {indent n : Nat}
    {qs : List Piece}

section Ends

private theorem not_expr_of_pathTarget {e : Expr} : ¬Reads pathTarget s (.expr e) t := by
  intro h
  simp only [pathTarget, reads_bind, reads_accept, reads_ite, reads_pure, reduceCtorEq, false_and,
    and_false, exists_false, or_self] at h

variable [∀ e, Advances (inner e)]

/-- A declaration begins with a keyword, and takes all operators behind it if it ends in an
expression. -/
theorem Echoes.ends_declaration (hi : Echoes inner) (h : Reads (declaration? inner) s (some d) t) :
    (∃ k, s.current? = some (.keyword k)) ∧ (d.open_ = true → t.atOperator = false) := by
  unfold declaration? at h
  rw [reads_get_bind] at h
  split at h
  case h_6 => cases (reads_pure.1 h).1
  all_goals
    refine ⟨⟨_, ‹s.current? = _›⟩, fun hopen => ?_⟩
    simp only [reads_bind, reads_pure, Option.some.injEq] at h
    obtain ⟨_, _, hd, rfl, rfl⟩ := h
  · rw [(Wrote.operation hi.writes hd).2] at hopen
    cases hopen
  · rw [(Wrote.profile hi.writes hd).2] at hopen
    cases hopen
  · simp only [Grammar.function, Grammar.functionBody, upToHere, reads_bind, reads_accept,
      reads_get, reads_ite, reads_pure, reads_ask, reads_unexpected, and_false, or_false, and_assoc,
      exists_and_left, exists_eq_left] at hd
    obtain ⟨_, _, -, _, _, -, _, _, -, params, _, -, body, _, ⟨_, _, -, hbody⟩, rfl, rfl⟩ := hd
    rcases hbody with ⟨-, e, _, he, rfl, rfl⟩ | ⟨-, -, b, _, -, rfl, rfl⟩
    · exact hi.closes he
    · cases hopen
  · simp only [Grammar.binding, reads_bind, reads_pure] at hd
    obtain ⟨_, _, _, _, _, _, _, _, _, _, _, hvalue, -, rfl⟩ := hd
    exact hi.closes hvalue
  · simp only [Grammar.use, upToHere, reads_bind, reads_get, reads_ite, reads_pure, reads_ask,
      and_assoc, exists_and_left, exists_eq_left] at hd
    obtain ⟨_, _, -, ⟨-, -, target, _, htarget, hrest⟩ | ⟨-, e, _, he, hrest⟩⟩ := hd
    · rcases hrest with ⟨-, b, _, -, rfl, rfl⟩ | ⟨-, rfl, rfl⟩
      · cases target <;> cases hopen
      · cases target with
        | expr e => exact (not_expr_of_pathTarget htarget).elim
        | _ => cases hopen
    · rcases hrest with ⟨-, b, _, -, rfl, rfl⟩ | ⟨-, rfl, rfl⟩
      · cases hopen
      · exact hi.closes he

private theorem Echoes.closes_item (hi : Echoes inner) (h : Reads (item inner) s i t)
    (hopen : i.open_ = true) :
    t.atOperator = false := by
  obtain ⟨d, s₁, hd, hrest⟩ := reads_bind.1 h
  cases d with
  | some d =>
    obtain ⟨rfl, rfl⟩ := reads_pure.1 hrest
    exact (hi.ends_declaration hd).2 hopen
  | none =>
    obtain ⟨e, s₂, he, hrest⟩ := reads_bind.1 hrest
    obtain ⟨rfl, rfl⟩ := reads_pure.1 hrest
    exact hi.closes he

private theorem Echoes.begins_item (hi : Echoes inner) (h : Reads (item inner) s i t) :
    ∃ l, s.current? = some l ∧ l ∉ [.symbol .rightBrace, .symbol .scope] := by
  obtain ⟨d, s₁, hd, hrest⟩ := reads_bind.1 h
  cases d with
  | some d =>
    obtain ⟨⟨k, hs⟩, -⟩ := hi.ends_declaration hd
    exact ⟨_, hs, by simp⟩
  | none =>
    obtain ⟨e, s₂, he, -⟩ := reads_bind.1 hrest
    obtain ⟨rfl, -⟩ := reads_declaration_none.1 hd
    have hstart := hi.starts he
    rw [State.atExpressionStart, Option.any_eq_true] at hstart
    obtain ⟨l, hl, hstart⟩ := hstart
    refine ⟨l, hl, ?_⟩
    rintro hmem
    simp only [List.mem_cons, List.not_mem_nil, or_false] at hmem
    rcases hmem with rfl | rfl <;> cases hstart

end Ends

section Items

variable [∀ e, Advances (inner e)]

private theorem Echoes.item (hi : Echoes inner) (h : Hears (item inner) s i t)
    (hgood : Good code (.item i)) (hbeyond : Beyond i.open_ t qs) :
    Echo code (Grammar.item inner) i n (i.layout indent ++ qs) n qs ∧
    Likes s (i.layout indent ++ qs) := by
  obtain ⟨hread, hs, hlog⟩ := h
  obtain ⟨d, s₁, hd, hrest⟩ := reads_bind.1 hread
  cases d with
  | some d =>
    obtain ⟨rfl, rfl⟩ := reads_pure.1 hrest
    obtain ⟨hecho, hlikes⟩ := hi.declaration indent n ⟨hd, hs, hlog⟩
      (hgood.children _ List.mem_cons_self) hbeyond
    rw [Item.layout]
    refine ⟨hecho.bind fun d' hd' => ?_, hlikes⟩
    cases d' with
    | none => cases hd'
    | some d' => exact .pure (congrArg Item.decl (Option.some.inj hd'))
  | none =>
    obtain ⟨rfl, -⟩ := reads_declaration_none.1 hd
    obtain ⟨e, s₂, he, hrest⟩ := reads_bind.1 hrest
    obtain ⟨rfl, rfl⟩ := reads_pure.1 hrest
    obtain ⟨hecho, hlikes⟩ :=
      hi.expression (n := n) indent ⟨he, hs, hlog⟩ (hgood.children _ List.mem_cons_self)
      hbeyond.toEdge (hbeyond.gap e)
    rw [Item.layout]
    refine ⟨(echo_declaration_none hd hlikes).bind fun d' hd' => ?_, hlikes⟩
    cases d' with
    | none => exact hecho.bind fun e' he' => .pure (congrArg Item.expr he')
    | some d' => cases hd'

omit [∀ e, Advances (inner e)] in
private theorem not_bars_of_item (h : i.opensBars = false) (hu : u.Shows (i.layout indent ++ qs)) :
    u.sees (.symbol .or) = false := by
  cases i with
  | decl d =>
    obtain ⟨k, ps, hps⟩ := d.layout_head indent qs
    rw [Item.layout, hps] at hu
    rw [hu.sees nofun]
    rfl
  | expr e =>
    obtain ⟨l, ps, hps, hopens⟩ := e.layout_head indent qs
    rw [Item.layout, hps] at hu
    by_cases hl : l = .symbol .bar
    · subst hl
      have hbar : ps.head? ≠ some (symbol .bar) := by
        intro hbar
        rw [Item.opensBars, hopens.bars rfl hbar] at h
        cases h
      rw [State.sees, (hu.bar hbar).1]
      rfl
    · rw [hu.sees hl, beq_eq_false_iff_ne]
      exact hopens.joined

theorem Echoes.lines (hi : Echoes inner) (indent n : Nat) {atEnd : State → Bool} {is : List Item}
    (hgood : ∀ i ∈ is, Good code (.item i)) (hbeyond : Beyond true t qs)
    (hends : ∀ u : State, u.Shows qs → atEnd u = true)
    (hstarts : ∀ {u : State} {l : Lexeme}, u.current? = some l → l ≠ .symbol .rightBrace →
    atEnd u = false) :
    Lines code atEnd (Grammar.item inner) (Item.layout indent) Item.open_ Item.opensBars is t
      n qs where
  each hmem h hbeyond := hi.item h (hgood _ hmem) hbeyond
  closes := hi.closes_item
  plain h := by
    obtain ⟨l, hs, hl⟩ := hi.begins_item h
    rw [State.sees, hs, beq_eq_false_iff_ne]
    rintro ⟨⟩
    exact hl (by decide)
  bars := not_bars_of_item
  starts h := by
    obtain ⟨l, hs, hl⟩ := hi.begins_item h
    refine hstarts hs ?_
    rintro rfl
    exact hl (by decide)
  beyond := hbeyond
  ends := hends _

end Items

section Blocks

variable {b : Block}

structure EndsBlock (code : Bool) (t : State) (n : Nat) (ps qs : List Piece) : Prop where
  beyond : Beyond true t ps
  ends (u : State) : u.Shows ps → atBlockEnd u = true
  close (opener : Span) : Echo code (close .brace false opener) .nowhere (n + 1) ps n qs

private theorem endsBlock_of_sees (ht : t.sees (.symbol .rightBrace) = true) : EndsBlock code t n
    (symbol .rightBrace :: qs) qs where
  beyond := (closed_of_sees (by decide) ht).beyond
  ends u hu := by rw [atBlockEnd, hu.sees (by simp), beq_self_eq_true, Bool.true_or]
  close _ := .close (by simp) .rightBrace

private theorem EndsBlock.line {ps : List Piece} (h : EndsBlock code t n ps qs) (indent : Nat) :
    EndsBlock code t n (Piece.line indent :: ps) qs where
  beyond := h.beyond.line indent
  ends u hu := h.ends u hu.line
  close opener := (h.close opener).line indent

def bracedLines {α : Type} (indent : Nat) (layout : Nat → α → List Piece) (as : List α) :
    List Piece :=
  symbol .leftBrace :: (as.flatMap (fun a => line (indent + 2) :: layout (indent + 2) a) ++
    (if as.isEmpty then [symbol .rightBrace] else [line indent, symbol .rightBrace]))

theorem bracedLines_ends {α : Type} (code : Bool) (indent n : Nat) (qs : List Piece)
    (ht : t.sees (.symbol .rightBrace) = true) (layout : Nat → α → List Piece) (as : List α) :
    ∃ ps, EndsBlock code t n ps qs ∧ bracedLines indent layout as ++ qs =
      symbol .leftBrace :: behindLine (indent + 2) (layout (indent + 2)) as ps := by
  cases as with
  | nil => exact ⟨_, endsBlock_of_sees ht, rfl⟩
  | cons a as =>
    refine ⟨_, (endsBlock_of_sees ht).line indent, ?_⟩
    simp only [bracedLines, behindLine, List.isEmpty_cons, Bool.false_eq_true, ↓reduceIte,
      List.append_assoc, List.cons_append, List.nil_append]

private theorem Block.layout_eq (indent : Nat) (b : Block) :
    b.layout indent = bracedLines indent Item.layout b.items := by
  obtain ⟨items, span⟩ := b
  cases items with
  | nil =>
    rw [Block.layout]
    rfl
  | cons i items =>
    rw [Block.layout, Block.layoutItems_eq]
    simp only [bracedLines, List.isEmpty_cons, Bool.false_eq_true, ↓reduceIte, List.flatMap_cons,
      List.append_assoc, List.cons_append, List.nil_append]

variable [∀ e, Advances (inner e)] [Consumes (inner .expression)]

private theorem items_eq_nil_iff (h : Reads (itemBlock inner) s b t) (hlog : t.log = s.log) :
    b.items = [] ↔ s.peek? 1 = some (.symbol .rightBrace) := by
  simp only [itemBlock, block, reads_bind, reads_expect, reads_close, reads_pure,
    reads_statements atBlockEnd_of_atEnd] at h
  obtain ⟨_, _, ⟨_, rfl, rfl⟩, is, u, his, _, _, ⟨hclose, rfl, rfl⟩, rfl, rfl⟩ := h
  rw [← s.peek?_advance]
  cases his with
  | done => exact iff_of_true rfl (State.current?_of_sees hclose)
  | read hend =>
    refine iff_of_false (List.cons_ne_nil _ _) fun hpeek => hend ?_
    rw [atBlockEnd, State.sees_of_peek?_eq hpeek, Bool.true_or]
  | resume _ hd rest =>
    rw [State.log_advance] at hlog
    exact (Listed.resumed hd rest (hlog.trans s.log_advance.symm)).elim

theorem Echoes.itemBlock (hi : Echoes inner) (h : Hears (itemBlock inner) s b t)
    (hgood : Good code (.block b)) (indent n : Nat) (qs : List Piece) :
    Echo code (Grammar.itemBlock inner) b n (b.layout indent ++ qs) n qs ∧
      Likes s (b.layout indent ++ qs) := by
  have hread := h
  unfold Grammar.itemBlock Grammar.block at h
  simp only [hears_bind, hears_pure, hears_expect, hears_close, and_assoc, exists_and_left,
    exists_eq_left] at h
  obtain ⟨-, hbrace, items, s₁, hitems, -, hclose, -, rfl, rfl⟩ := h
  obtain ⟨ps, hends, hlayout⟩ := bracedLines_ends code indent n qs hclose Item.layout items
  have hall :=
    hi.lines (indent + 2) (n + 1) (fun i hi => hgood.children (.item i) (List.mem_map_of_mem hi))
    hends.beyond hends.ends atBlockEnd_of_current?
  have hecho : Echo code (Grammar.itemBlock inner) ⟨items, s.currentSpan.merge s₁.currentSpan⟩ n
      (symbol .leftBrace :: behindLine (indent + 2) (Item.layout (indent + 2)) items ps) n qs := by
    refine (Echo.expect (l := .symbol .leftBrace) nofun .leftBrace).bind fun opener _ =>
      (Echo.statements atBlockEnd_of_atEnd hall hitems hgood.here.reprintable).bind
          fun items' hitems' =>
      (hends.close opener).bind fun closer _ => .pure ?_
    simp only [Same, respan, Block.respan, Item.respanAll_eq_map] at hitems' ⊢
    rw [hitems']
  rw [Block.layout_eq, hlayout]
  refine ⟨hecho, likes_leftBrace hbrace fun u hu hobject => ?_⟩
  obtain ⟨b', v, hb', hsame, -, hlog⟩ := hecho.answers hu
  have hstart := hi.told hb' hlog
  rw [State.atOptionalObject, hstart, Bool.false_or, Bool.and_eq_true, beq_iff_eq] at hobject
  have hempty : b'.items = [] := (items_eq_nil_iff hb' hlog).2 hobject.2
  have hitems' :
      items.map (respan fun _ => .nowhere) = b'.items.map (respan fun _ => .nowhere) := by
    obtain ⟨items', span⟩ := b'
    simp only [Same, respan, Block.respan, Item.respanAll_eq_map, Block.mk.injEq] at hsame
    exact hsame.1
  rw [hempty, List.map_nil, List.map_eq_nil_iff] at hitems'
  have hpeek := (items_eq_nil_iff hread.reads hread.quiet).1 hitems'
  rw [State.atOptionalObject, hbrace, hpeek, beq_self_eq_true, Bool.and_true, Bool.or_true]

end Blocks

end ApiScript.Grammar
