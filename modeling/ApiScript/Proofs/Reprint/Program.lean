import ApiScript.Proofs.Pairing.Layout
import ApiScript.Proofs.Reprint.Expression

set_option autoImplicit false
set_option relaxedAutoImplicit false
set_option synthInstance.maxSize 2000

/-!
Programs are read again from what they are written as, if nothing in them is written so that it is
read as something else.
-/

namespace ApiScript

open Grammar Piece Placed
open Node (Good)

namespace Grammar

variable {inner : Inner} {s t u : State}

section Starts

private theorem atExpressionStart_of_primary {e : Expr} (h : Reads (primary inner) s e t) :
    s.atExpressionStart = true := by
  unfold primary at h
  rw [reads_get_bind] at h
  split at h
  case h_14 =>
    simp only [reads_ite, reads_unexpected, and_false, or_false] at h
    obtain ⟨l, hl, hbegins⟩ := State.current?_of_atLiteral h.1
    rw [State.atExpressionStart, hl]
    rcases hbegins with hliteral | rfl
    · cases l with
      | keyword k => cases k <;> first | rfl | cases hliteral
      | symbol | comment | invalid => cases hliteral
      | _ => rfl
    · rfl
  all_goals
    rename_i hcurrent
    rw [State.atExpressionStart, hcurrent]
    rfl

private theorem atExpressionStart_of_pipe {e : Expr} (h : Reads (pipe inner) s e t) :
    s.atExpressionStart = true := by
  cases hop : unaryOp? s with
  | some op =>
    rw [State.atExpressionStart, unaryOp?_current? hop]
    cases op <;> rfl
  | none =>
    obtain ⟨e', u, hprimary⟩ := primary_of_pipe hop h
    exact atExpressionStart_of_primary hprimary

private theorem after_of_pattern_key (hkey : s.atKey = true)
    (hcolon : s.advance.sees (.symbol .colon) = true) {p : Pattern}
    (h : Reads (pattern inner) s p t) : t.after = s.advance.after := by
  unfold pattern at h
  rw [reads_get_bind] at h
  rcases State.current?_of_atKey hkey with ⟨text, hs⟩ | ⟨kind, raw, hkind, hs⟩
  · simp only [hs, reads_bind, reads_advance, reads_pure, exists_const, exists_eq_left] at h
    rw [h.2]
  · simp only [hs, reads_ite, reads_throw, and_false, or_false] at h
    unfold literalPattern at h
    rw [reads_get_bind] at h
    obtain ⟨l, u, hl, hrest⟩ := reads_bind.1 h.2
    have hafter := (after_of_literal_key hkind hs hl).2
    have hmark : u.atRangeMark = false := by
      have hu := State.current?_of_sees ((State.sees_of_after hafter _).trans hcolon)
      rw [State.atRangeMark, State.sees, State.sees, hu]
      rfl
    rw [reads_get_bind] at hrest
    simp only [hmark, Bool.false_eq_true, ↓reduceIte, reads_pure] at hrest
    rw [hrest.2, hafter]

private theorem scope_of_pipe [∀ e, Advances (inner e)] {e : Expr} (h : Reads (pipe inner) s e t)
    (hname : s.atIdentifier = true) (hscope : s.peek? 1 = some (.symbol .scope)) :
    t.sees (.symbol .scope) = true := by
  rw [← s.peek?_advance 0] at hscope
  have hkey : s.atKey = true := by rw [State.atKey, hname, Bool.true_or]
  have hend : ∀ l ∈ s.advance.current?, l.tightness < 1 := by
    intro l hl
    obtain rfl := Option.some.inj (hscope.symm.trans hl)
    decide
  rw [State.sees_of_after (after_of_pipe_loose hkey hend h)]
  exact State.sees_of_peek?_eq hscope

variable {limit room : Nat}

/-- At all levels, what is read without a report is read again from what it is written as. -/
private theorem echoes_enter (limit room : Nat) : Echoes (enter limit room) := by
  induction room with
  | zero =>
    exact
      { expression := fun _ _ h => by cases h.reads
        operand := fun _ _ h => by cases h.reads
        alternative := fun _ _ h => by cases h.reads
        block := fun _ _ _ h => by cases h.reads
        pattern := fun _ _ h => by cases h.reads
        starts := fun h => by cases h
        closes := fun h => by cases h
        qualified := fun h => by cases h
        begins := fun _ h => by cases h
        keyed := fun h => by cases h
        writes := writes_enter limit 0
        told := atObjectStart_of_block }
  | succ room ih =>
    exact
      { expression := fun indent n h hgood hedge hgap => ih.pipe indent n h hgood hedge hgap
        operand := fun indent n h hgood hedge hgap => ih.unary indent n h hgood hedge hgap
        alternative := fun indent n h hgood hlikes => (ih.conditional indent n h hgood hlikes).1
        block := fun indent n qs h hgood => ih.itemBlock h hgood indent n qs
        pattern := fun _ _ h hgood hedge => ih.patternNode h hgood hedge
        starts := atExpressionStart_of_pipe
        closes := fun h => ((extends_enter limit (room + 1)).1.expression h).2
        qualified := fun h => scope_of_pipe h
        begins := not_closer_of_reads_pattern
        keyed := fun h hkey hcolon => by
          rwa [State.sees_of_after (after_of_pattern_key hkey hcolon h)]
        writes := writes_enter limit (room + 1)
        told := atObjectStart_of_block }

end Starts

section Script

private theorem beyond_nil (ht : t.after = []) : Beyond true t [] where
  toAhead := .nil ht
  detached := detached_nil
  gap _ := nofun
  scope := by simp [State.sees, State.current?, State.peek?, ht]

private theorem layout_script (i : Item) (items : List Item) (span : Span) :
    (Program.mk (i :: items) span).layout = i.layout 0 ++
      behindLine 0 (Item.layout 0) items [] := by
  induction items generalizing i with
  | nil =>
    simp only [Program.layout, List.map_cons, List.map_nil, List.intercalate_singleton, behindLine,
      List.flatMap_nil, List.append_nil]
  | cons j items ih =>
    have hrest := ih j
    simp only [Program.layout, List.map_cons] at hrest ⊢
    rw [List.intercalate_cons_cons, hrest, behindLine_cons, List.append_assoc,
      List.singleton_append]

variable {items : List Item} {limit : Nat}

private theorem echo_script (span : Span)
    (h : Listed .script State.atEnd (item (enter limit limit)) s items t) (hs : s.Spelled)
    (hlog : t.log = s.log) (hgood : ∀ i ∈ items, Good false (.item i))
    (hchain : items.IsChain Item.Apart) :
    Written false 0 (Program.mk items span).layout ∧ ∀ u : State,
    u.Shows (Program.mk items span).layout → ∃ items' v,
      Listed .script State.atEnd (item (enter limit limit)) u items' v ∧ Same items items' ∧
      v.log = u.log := by
  have hfinish : t.after = [] := by simpa [State.atEnd] using h.atEnd
  have hends (u : State) (hu : u.Shows []) : u.atEnd = true := by
    rw [State.atEnd, hu.nil, List.isEmpty_nil]
  have hall : Lines false State.atEnd (item (enter limit limit))
    (Item.layout 0) Item.open_ Item.opensBars items t 0 [] :=
    (echoes_enter limit limit).lines 0 0 hgood (beyond_nil hfinish) hends fun hu _ =>
      State.not_atEnd_of_current? hu
  cases h with
  | done => exact ⟨.nil, fun u hu => ⟨[], u, .done (hends u hu), rfl, rfl⟩⟩
  | @read _ s₁ _ i items _ hi rest =>
    rw [layout_script]
    obtain ⟨hear, hs₁, hlog₁⟩ := Hears.of_reads hi rest.reaches hs hlog
    rw [List.isChain_cons] at hchain
    obtain ⟨hbeyond, hwritten, hanswers⟩ := echo_lines 0 hall.tail rest hs₁ hlog₁ hchain.2
    obtain ⟨hecho, -⟩ := hall.each List.mem_cons_self hear
      (hbeyond _ fun hopen => ⟨hall.closes hi hopen, fun j hj => hchain.1 j hj hopen⟩)
    refine ⟨hecho.written (hwritten .nil), fun u hu => ?_⟩
    obtain ⟨i', v, hi', hsame, hv, hlogv⟩ := hecho.answers hu
    obtain ⟨items', w, hitems', hsames, -, hlogw⟩ := hanswers v hv
    refine ⟨i' :: items', w, .read ?_ hi' hitems', same_cons hsame hsames, hlogw.trans hlogv⟩
    rw [hall.starts hi']
    exact Bool.false_ne_true
  | resume _ hd rest => exact (Listed.resumed hd rest hlog).elim

end Script

end Grammar

private theorem parse_good {source : String} {limit : Nat}
    (h : (parse source limit).1.Reprintable) :
    ∀ i ∈ (parse source limit).1.items, Good false (.item i) := by
  intro i hi
  refine ((h.everywhere i hi).and (parse_wellFormed source limit i hi)).imp fun n hn =>
    ⟨hn.1, ?_, nofun⟩
  rintro s rfl
  exact hn.2.formed

/-- A script that nothing is wrong with is read again from what its program is written as: nothing
is wrong with that either, and the program is the same, places apart. No parentheses are written, so
that this is asked of programs in which nothing is taken for a part of what it is written
against. -/
theorem parse_reprints (source : String) (limit : Nat) (haccepted : (parse source limit).2 = [])
    (hreprintable : (parse source limit).1.Reprintable) :
    (parse (parse source limit).1.print limit).2 = [] ∧
      (parse (parse source limit).1.print limit).1.bare = (parse source limit).1.bare := by
  obtain ⟨finish, hstart, hclean, hlisted, hprogram⟩ := listed_of_parse haccepted
  obtain ⟨hwritten, hanswers⟩ :=
    echo_script (State.ofString source 0).area hlisted (State.spelled_ofString source 0)
    (hclean.trans hstart.symm) (parse_good hreprintable) hreprintable.apart
  rw [← hprogram] at hwritten hanswers
  obtain ⟨hshows, hquiet⟩ := State.shows_ofString hwritten 0
  obtain ⟨items, finish', hitems, hsame, hlog⟩ := hanswers _ hshows
  -- The text is read in one way, and that is the one found.
  have hread : Reads (script (enter limit limit)) (State.ofString (parse source limit).1.print 0)
      ⟨items, (State.ofString (parse source limit).1.print 0).area⟩ finish' :=
    reads_script.2 (.inr ⟨broken_of_log_nil hquiet, hitems, rfl⟩)
  obtain ⟨finish'', hread', hlog'⟩ := reads_parse (parse source limit).1.print limit
  obtain ⟨heq, rfl⟩ := EStateM.Result.ok.inj (hread.symm.trans hread')
  constructor
  · rw [hlog', hlog, hquiet]
  · rw [← heq]
    simp only [Same, respan] at hsame
    simp only [Program.bare, Program.respan, Item.respanAll_eq_map, hsame]

/-- A negated call with bytes in the code in a string, a lambda with an emission and a number that
is negated. -/
theorem parse_reprints_of_negated :
    (parse "let x = -f(\"n: $\x7bb\"k\"\x7d\") |> |y| emit.json(y)\n// none\nlet z = - 1" 8).2 =
      [] ∧
      (parse "let x = -f(\"n: $\x7bb\"k\"\x7d\") |> |y| emit.json(y)\n// none\nlet z = - 1"
        8).1.Reprintable ∧
      (parse (parse "let x = -f(\"n: $\x7bb\"k\"\x7d\") |> |y| emit.json(y)\n// none\nlet z = - 1"
        8).1.print 8).2 = [] ∧
      (parse (parse "let x = -f(\"n: $\x7bb\"k\"\x7d\") |> |y| emit.json(y)\n// none\nlet z = - 1"
        8).1.print 8).1.bare =
        (parse "let x = -f(\"n: $\x7bb\"k\"\x7d\") |> |y| emit.json(y)\n// none\nlet z = - 1"
          8).1.bare := by
  have haccepted :
      (parse "let x = -f(\"n: $\x7bb\"k\"\x7d\") |> |y| emit.json(y)\n// none\nlet z = - 1" 8).2 =
        [] := by
    decide +kernel
  have hreprintable :
      (parse "let x = -f(\"n: $\x7bb\"k\"\x7d\") |> |y| emit.json(y)\n// none\nlet z = - 1"
        8).1.Reprintable :=
    .of_check 16 (by decide +kernel)
  exact ⟨haccepted, hreprintable, parse_reprints _ 8 haccepted hreprintable⟩

end ApiScript
