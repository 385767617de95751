import ApiScript.Proofs.Reprint.Object

set_option autoImplicit false
set_option relaxedAutoImplicit false
set_option synthInstance.maxSize 2000

/-!
Statements, each on a line of its own, are read again if each of them is. A statement that ends in
an expression takes all operators behind it, so that the next one must not begin with two bars
against each other.
-/

namespace ApiScript.Grammar

open Piece Placed

/-- What is ahead of a statement, with what is written behind it: nothing of it is read as part of
the statement. -/
structure Beyond (bound : Bool) (t : State) (qs : List Piece) : Prop extends Edge bound t qs where
  gap (e : Expr) : Gap e qs
  scope : t.sees (.symbol .scope) = false

theorem Closed.beyond {bound : Bool} {t : State} {qs : List Piece} (h : Closed t qs) :
    Beyond bound t qs where
  toEdge := h.edge
  gap := h.gap
  scope := by
    obtain ⟨s, hs, ps, -, hrole⟩ := h
    rw [Bool.eq_false_iff]
    intro hscope
    rw [State.current?_of_sees hscope] at hrole
    simp only [List.mem_cons, List.not_mem_nil, or_false] at hs
    rcases hs with rfl | rfl | rfl | rfl <;> cases hrole

theorem Beyond.line {bound : Bool} {t : State} {qs : List Piece} (indent : Nat)
    (h : Beyond bound t qs) :
    Beyond bound t (Piece.line indent :: qs) where
  toEdge := h.edge_line indent
  gap e := gap_line e indent
  scope := h.scope

section Lines

variable {α : Type} [Placed α] {code : Bool} {indent n : Nat} {surroundings : Surroundings}
    {atEnd : State → Bool}
  {statement : Parser α} {layout : α → List Piece} {open_ opens : α → Bool} {s t : State}
    {as : List α}
    {qs : List Piece}

/-- The readers of statements that stand on lines of their own, up to an end: each statement is
written and read again in front of what is not read as part of it. One may end in an expression, and
one may begin with two bars. -/
structure Lines (code : Bool) (atEnd : State → Bool) (statement : Parser α)
    (layout : α → List Piece) (open_ opens : α → Bool) (as : List α) (t : State) (n : Nat)
    (qs : List Piece) : Prop where
  each {a : α} {s t : State} {ps : List Piece} : a ∈ as → Hears statement s a t →
    Beyond (open_ a) t ps →
    Echo code statement a n (layout a ++ ps) n ps ∧ Likes s (layout a ++ ps)
  closes {a : α} {s t : State} : Reads statement s a t → open_ a = true → t.atOperator = false
  plain {a : α} {s t : State} : Reads statement s a t → s.sees (.symbol .scope) = false
  bars {a : α} {u : State} {ps : List Piece} : opens a = false → u.Shows (layout a ++ ps) →
    u.sees (.symbol .or) = false
  starts {a : α} {u v : State} : Reads statement u a v → atEnd u = false
  beyond : Beyond true t qs
  ends {u : State} : u.Shows qs → atEnd u = true

theorem Lines.tail {a : α} (h : Lines code atEnd statement layout open_ opens (a :: as) t n qs) :
    Lines code atEnd statement layout open_ opens as t n qs :=
  { h with each := fun ha => h.each (List.mem_cons_of_mem _ ha) }

abbrev behindLine (indent : Nat) (layout : α → List Piece) (as : List α) (qs : List Piece) :
    List Piece :=
  as.flatMap (fun a => Piece.line indent :: layout a) ++ qs

omit [Placed α] in
theorem behindLine_cons (a : α) : behindLine indent layout (a :: as) qs =
    Piece.line indent :: (layout a ++ behindLine indent layout as qs) := by
  rw [behindLine, List.flatMap_cons, List.cons_append, List.cons_append, List.append_assoc]

private theorem Ahead.weaken {bound : Bool} (h : Ahead true t qs) : Ahead bound t qs where
  likes := h.likes
  bars _ := h.bars rfl
  unsigned _ := h.unsigned rfl

private theorem Beyond.weaken {bound : Bool} (h : Beyond true t qs) : Beyond bound t qs where
  toAhead := h.toAhead.weaken
  detached := h.detached
  gap := h.gap
  scope := h.scope

variable [Advances statement]

/-- The statements behind one are written so that nothing of them is read as part of it, and are
read again. -/
theorem echo_lines (indent : Nat) (hall : Lines code atEnd statement layout open_ opens as t n qs)
    (h : Listed surroundings atEnd statement s as t) (hs : s.Spelled) (hlog : t.log = s.log)
    (hchain : as.IsChain fun a b => open_ a = true → opens b = false) :
    (∀ bound, (bound = true → s.atOperator = false ∧ ∀ a ∈ as.head?, opens a = false) →
      Beyond bound s (behindLine indent layout as qs)) ∧
      (Written code n qs → Written code n (behindLine indent layout as qs)) ∧
      ∀ u : State, u.Shows (behindLine indent layout as qs) → ∃ as' v,
        Listed surroundings atEnd statement u as' v ∧ Same as as' ∧ v.Shows qs ∧ v.log = u.log := by
  induction h with
  | done =>
    exact ⟨fun _ _ => hall.beyond.weaken, id, fun u hu =>
      ⟨[], u, .done (hall.ends hu), rfl, hu, rfl⟩⟩
  | @read s s₁ t a as _ ha rest ih =>
    obtain ⟨hear, hs₁, hlog₁⟩ := Hears.of_reads ha rest.reaches hs hlog
    rw [List.isChain_cons] at hchain
    obtain ⟨hbeyond, hwritten, hanswers⟩ := ih hall.tail hs₁ hlog₁ hchain.2
    obtain ⟨hecho, hlikes⟩ := hall.each List.mem_cons_self hear
      (hbeyond _ fun hopen => ⟨hall.closes ha hopen, fun b hb => hchain.1 b hb hopen⟩)
    rw [behindLine_cons]
    refine ⟨fun bound hbound =>
      ⟨⟨.of_likes (hlikes.line indent) (fun h => (hbound h).1) fun h u hu hor => ?_,
      detached_line⟩,
      fun e => gap_line e indent, hall.plain ha⟩, fun hqs =>
        (hecho.written (hwritten hqs)).line indent, fun u hu => ?_⟩
    · rw [hall.bars ((hbound h).2 a rfl) hu.line] at hor
      cases hor
    · obtain ⟨a', v, ha', hsame, hv, hlogv⟩ := hecho.answers hu.line
      obtain ⟨as', w, has', hsames, hw, hlogw⟩ := hanswers v hv
      refine ⟨a' :: as', w, .read ?_ ha' has', same_cons hsame hsames, hw, hlogw.trans hlogv⟩
      rw [hall.starts ha']
      exact Bool.false_ne_true
  | resume _ hd rest => exact (Listed.resumed hd rest hlog).elim

variable [Consumes statement]

theorem Echo.statements (hend : ∀ s : State, s.atEnd → atEnd s)
    (hall : Lines code atEnd statement layout open_ opens as t n qs)
    (h : Hears (statements surroundings atEnd statement) s as t)
    (hchain : as.IsChain fun a b => open_ a = true → opens b = false) :
    Echo code (Grammar.statements surroundings atEnd statement) as n
      (behindLine indent layout as qs) n qs := by
  obtain ⟨hread, hs, hlog⟩ := h
  obtain ⟨-, hwritten, hanswers⟩ :=
    echo_lines indent hall ((reads_statements hend).1 hread) hs hlog hchain
  refine ⟨hwritten, fun {u} hu => ?_⟩
  obtain ⟨as', v, has', hrest⟩ := hanswers u hu
  exact ⟨as', v, (reads_statements hend).2 has', hrest⟩

end Lines

end ApiScript.Grammar
