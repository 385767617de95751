import ApiScript.Proofs.Reprint.Pieces
import ApiScript.Proofs.Reprint.Tree
import ApiScript.Proofs.Spans.Placed

set_option autoImplicit false
set_option relaxedAutoImplicit false
set_option synthInstance.maxSize 2000

/-!
Two readings: one of a source without anything being reported, and one of the pieces that its answer
is written as. The second answers with the same, places apart, and leaves the pieces behind it.
-/

namespace ApiScript

open Piece

/-- Two values that differ in places alone. -/
abbrev Placed.Same {α : Type} [Placed α] (a b : α) : Prop :=
  respan (fun _ => .nowhere) a = respan (fun _ => .nowhere) b

open Placed (Same)

theorem Name.IsIdentifier.piece {n : Name} (h : n.IsIdentifier) :
    Piece.name n = Piece.lexeme (.identifier n.text) :=
  congrArg Piece.lexeme (Lexeme.ofWord_eq_identifier.2 ⟨rfl, h.free⟩)

namespace Grammar

variable {α β : Type} {s t u v : State} {a : α} {b : β} {p : Parser α} {f : α → Parser β}
    {ps qs : List Piece}

section Source

/-- All tokens ahead are written as lexemes of their kinds are. -/
def State.Spelled (s : State) : Prop := ∀ x ∈ s.after, x.lexeme.WellSpelled

theorem State.Spelled.reaches (hs : s.Spelled) (h : Reaches s t) : t.Spelled := by
  obtain ⟨ts, hm⟩ := h
  intro x hx
  refine hs x ?_
  rw [hm.after]
  exact List.mem_append_right ts hx

theorem State.Spelled.advance (hs : s.Spelled) : s.advance.Spelled := hs.reaches (.advance s)

theorem State.Spelled.current? (hs : s.Spelled) {l : Lexeme} (h : s.current? = some l) :
    l.WellSpelled := by
  obtain ⟨x, ts, hafter, rfl⟩ := State.after_of_current? h
  exact hs x (by simp [hafter])

theorem State.spelled_ofString (source : String) (offset : Nat) :
    (State.ofString source offset).Spelled := by
  intro x hx
  obtain ⟨hmem, hvalid⟩ := List.mem_filter.1 hx
  refine (Lexer.tokenize_wellSpelled _ _ x (List.mem_filter.1 hmem).1).resolve_left ?_
  simpa using hvalid

/-- From the state, whose tokens are all well spelled, the reader answers and reports nothing. -/
structure Hears (p : Parser α) (s : State) (a : α) (t : State) : Prop where
  reads : Reads p s a t
  spelled : s.Spelled
  quiet : t.log = s.log

theorem hears_bind [Advances p] [∀ a, Advances (f a)] :
    Hears (p >>= f) s b u ↔ ∃ a t, Hears p s a t ∧ Hears (f a) t b u := by
  constructor
  · rintro ⟨hread, hs, hquiet⟩
    obtain ⟨a, t, ha, hb⟩ := reads_bind.1 hread
    have hfirst := (Advances.reads ha).log
    have hrest := (Advances.reads hb).log
    have ht : t.log = s.log := (hfirst.eq_of_length_le (hquiet ▸ hrest.length_le)).symm
    exact ⟨a, t, ⟨ha, hs, ht⟩, hb, hs.reaches (Advances.reads ha), hquiet.trans ht.symm⟩
  · rintro ⟨a, t, ⟨ha, hs, ht⟩, ⟨hb, -, hu⟩⟩
    exact ⟨reads_bind.2 ⟨a, t, ha, hb⟩, hs, hu.trans ht⟩

theorem hears_get_bind {f : State → Parser α} : Hears (get >>= f) s a t ↔ Hears (f s) s a t :=
  ⟨fun h => ⟨h.reads, h.spelled, h.quiet⟩, fun h => ⟨h.reads, h.spelled, h.quiet⟩⟩

theorem hears_ite {c : Prop} [Decidable c] {p q : Parser α} :
    Hears (if c then p else q) s a t ↔ c ∧ Hears p s a t ∨ ¬c ∧ Hears q s a t := by
  by_cases h : c <;> simp [h]

private theorem hears_iff {q : Prop} (h : Reads p s a t ↔ q) (hlog : q → t.log = s.log) :
    Hears p s a t ↔ s.Spelled ∧ q :=
  ⟨fun k => ⟨k.spelled, h.1 k.reads⟩, fun ⟨hs, hq⟩ => ⟨h.2 hq, hs, hlog hq⟩⟩

theorem hears_pure {b : α} : Hears (pure a) s b t ↔ s.Spelled ∧ b = a ∧ t = s :=
  hears_iff reads_pure fun ⟨_, ht⟩ => by rw [ht]

theorem hears_advance {r : Unit} : Hears advance s r t ↔ s.Spelled ∧ t = s.advance :=
  hears_iff reads_advance fun ht => by rw [ht, State.log_advance]

theorem hears_ask {question : State → α} : Hears (ask question) s a t ↔ s.Spelled ∧
    a = question s ∧ t = s :=
  hears_iff reads_ask fun ⟨_, ht⟩ => by rw [ht]

theorem hears_expect {l : Lexeme} {span : Span} :
    Hears (expect l) s span t ↔ s.Spelled ∧ s.sees l ∧ span = s.currentSpan ∧ t = s.advance :=
  hears_iff reads_expect fun ⟨_, _, ht⟩ => by rw [ht, State.log_advance]

theorem hears_accept {l : Lexeme} {r : Bool} : Hears (accept l) s r t ↔
    s.Spelled ∧ (s.sees l ∧ r = true ∧ t = s.advance ∨ ¬s.sees l ∧ r = false ∧ t = s) := by
  refine hears_iff reads_accept ?_
  rintro (⟨-, -, rfl⟩ | ⟨-, -, rfl⟩)
  · exact State.log_advance s
  · rfl

theorem hears_name {expected : Expectation} {n : Name} : Hears (name expected) s n t ↔
    s.Spelled ∧ s.current? = some (.identifier n.text) ∧ n.span = s.currentSpan ∧ t = s.advance :=
  hears_iff reads_name fun ⟨_, _, ht⟩ => by rw [ht, State.log_advance]

theorem hears_close {delimiter : Delimiter} {list : Bool} {opener span : Span} :
    Hears (close delimiter list opener) s span t ↔
      s.Spelled ∧ s.sees delimiter.closer ∧ span = s.currentSpan ∧ t = s.advance :=
  hears_iff reads_close fun ⟨_, _, ht⟩ => by rw [ht, State.log_advance]

theorem hears_operand {operator : Lexeme} {r : Unit} :
    Hears (operand operator) s r t ↔ s.Spelled ∧ s.atExpressionStart ∧ t = s :=
  hears_iff reads_operand fun ⟨_, ht⟩ => by rw [ht]

theorem hears_get {r : State} : Hears get s r t ↔ s.Spelled ∧ r = s ∧ t = s :=
  hears_iff reads_get fun ⟨_, ht⟩ => by rw [ht]

theorem hears_throw {d : Diagnostic} : Hears (throw d) s a t ↔ False :=
  ⟨fun h => reads_throw.1 h.reads, False.elim⟩

theorem hears_unexpected {expected : Expectation} : Hears (unexpected expected) s a t ↔ False :=
  ⟨fun h => reads_unexpected.1 h.reads, False.elim⟩

end Source

section Printed

variable [Placed α] [Placed β] {n m k : Nat} {all mid : List Piece} {code : Bool} {l : Lexeme}

/-- From the state, the reader answers with the same as `a`, reports nothing and leaves the pieces
`qs` ahead. -/
def Answers (p : Parser α) (u : State) (a : α) (qs : List Piece) : Prop :=
  ∃ b v, Reads p u b v ∧ Same a b ∧ v.Shows qs ∧ v.log = u.log

private theorem Answers.bind (h : Answers p u a mid)
    (k : ∀ a' v, Reads p u a' v → Same a a' → v.Shows mid → Answers
    (f a') v b qs) : Answers (p >>= f) u b qs := by
  obtain ⟨a', v, ha, hsame, hv, hlog⟩ := h
  obtain ⟨b', w, hb, hsame', hw, hlog'⟩ := k a' v ha hsame hv
  exact ⟨b', w, reads_bind.2 ⟨a', v, ha, hb⟩, hsame', hw, hlog'.trans hlog⟩

/-- The pieces `all` are read as the same as `a`, up to `qs`. Of the braces that are open in front
of them, `n` are closed in them and behind, and `m` of those behind `all`. -/
structure Echo (code : Bool) (p : Parser α) (a : α) (n : Nat) (all : List Piece) (m : Nat)
    (qs : List Piece) :
    Prop where
  written : Written code m qs → Written code n all
  answers {u : State} : u.Shows all → Answers p u a qs

namespace Echo

theorem bind (h : Echo code p a n all m mid)
    (next : ∀ a', Same a a' → Echo code (f a') b m mid k qs) :
    Echo code (p >>= f) b n all k qs where
  written hqs := h.written ((next a rfl).written hqs)
  answers hu := (h.answers hu).bind fun a' _ _ hsame hv => (next a' hsame).answers hv

theorem pure {a' : α} (h : Same a a') : Echo code (pure a') a n qs n qs where
  written := id
  answers {u} hu := ⟨a', u, reads_pure.2 ⟨rfl, rfl⟩, h, hu, rfl⟩

theorem space (h : Echo code p a n all m qs) : Echo code p a n (space :: all) m qs where
  written hqs := (h.written hqs).space
  answers hu := h.answers hu.space

theorem line (indent : Nat) (h : Echo code p a n all m qs) :
    Echo code p a n (line indent :: all) m qs where
  written hqs := (h.written hqs).line indent
  answers hu := h.answers hu.line

theorem exists_shows (ps : List Piece) : ∃ u : State, u.Shows ps :=
  ⟨⟨.nowhere, false, [], tokens 0 (joined ps), []⟩, 0, rfl⟩

theorem get_bind {f : State → Parser α} (h : ∀ u, u.Shows all → Echo code (f u) a n all m qs) :
    Echo code (get >>= f) a n all m qs where
  written := by
    obtain ⟨u, hu⟩ := exists_shows all
    exact (h u hu).written
  answers {u} hu := (h u hu).answers hu

theorem ite_pos {c : Prop} [Decidable c] {q : Parser α} (hc : c) (h : Echo code p a n all m qs) :
    Echo code (if c then p else q) a n all m qs := by
  rwa [if_pos hc]

theorem ite_neg {c : Prop} [Decidable c] {q : Parser α} (hc : ¬c) (h : Echo code q a n all m qs) :
    Echo code (if c then p else q) a n all m qs := by
  rwa [if_neg hc]

theorem of_reads {q : Parser α} (h : Echo code q a n all m qs)
    (hp : ∀ u : State, u.Shows all → ∀ b v, Reads q u b v → Reads p u b v) :
    Echo code p a n all m qs where
  written := h.written
  answers {u} hu := by
    obtain ⟨b, v, hb, hrest⟩ := h.answers hu
    exact ⟨b, v, hp u hu b v hb, hrest⟩

theorem advance (hl : l ≠ .symbol .bar) (hw : Written code m qs → Written code n (lexeme l :: qs)) :
    Echo code advance () n (lexeme l :: qs) m qs where
  written := hw
  answers {u} hu := ⟨(), u.advance, reads_advance.2 rfl, rfl, hu.advance hl, u.log_advance⟩

theorem expect (hl : l ≠ .symbol .bar) (hw : Written code m qs → Written code n (lexeme l :: qs)) :
    Echo code (expect l) .nowhere n (lexeme l :: qs) m qs where
  written := hw
  answers {u} hu := by
    refine ⟨u.currentSpan, u.advance, reads_expect.2 ⟨?_, rfl, rfl⟩, rfl, hu.advance hl,
      u.log_advance⟩
    rw [hu.sees hl, beq_self_eq_true]

theorem close {delimiter : Delimiter} {list : Bool} {opener : Span} (hbar : delimiter ≠ .bar)
    (hw : Written code m qs → Written code n (lexeme delimiter.closer :: qs)) :
    Echo code (close delimiter list opener) .nowhere n (lexeme delimiter.closer :: qs) m qs where
  written := hw
  answers {u} hu := by
    have hl : delimiter.closer ≠ .symbol .bar := by
      cases delimiter with
      | bar => exact absurd rfl hbar
      | _ => decide
    refine ⟨u.currentSpan, u.advance, reads_close.2 ⟨?_, rfl, rfl⟩, rfl, hu.advance hl,
      u.log_advance⟩
    rw [hu.sees hl, beq_self_eq_true]

theorem accept {f : Bool → Parser α} (hl : l ≠ .symbol .bar)
    (hw : Written code m mid → Written code n (lexeme l :: mid))
    (h : Echo code (f true) a m mid k qs) :
    Echo code (accept l >>= f) a n (lexeme l :: mid) k qs where
  written hqs := hw (h.written hqs)
  answers {u} hu := by
    have hthere : Reads (Grammar.accept l) u true u.advance := by
      refine reads_accept.2 (.inl ⟨?_, rfl, rfl⟩)
      rw [hu.sees hl, beq_self_eq_true]
    obtain ⟨b, v, hb, hsame, hv, hlog⟩ := h.answers (hu.advance hl)
    exact ⟨b, v, reads_bind.2 ⟨true, u.advance, hthere, hb⟩, hsame, hv, hlog.trans u.log_advance⟩

theorem not_accept {f : Bool → Parser α} (hl : ∀ u : State, u.Shows all → u.sees l = false)
    (h : Echo code (f false) a n all m qs) : Echo code (Grammar.accept l >>= f) a n all m qs where
  written := h.written
  answers {u} hu := by
    have habsent : Reads (Grammar.accept l) u false u :=
      reads_accept.2 (.inr ⟨by simp [hl u hu], rfl, rfl⟩)
    obtain ⟨b, v, hb, hrest⟩ := h.answers hu
    exact ⟨b, v, reads_bind.2 ⟨false, u, habsent, hb⟩, hrest⟩

theorem ask {question : State → Span} : Echo code (ask question) .nowhere n qs n qs where
  written := id
  answers {u} hu := ⟨question u, u, reads_ask.2 ⟨rfl, rfl⟩, rfl, hu, rfl⟩

theorem operand {operator : Lexeme} (h : ∀ u : State, u.Shows qs → u.atExpressionStart = true) :
    Echo code (operand operator) () n qs n qs where
  written := id
  answers {u} hu := ⟨(), u, reads_operand.2 ⟨h u hu, rfl⟩, rfl, hu, rfl⟩

theorem name {expected : Expectation} {x : Name} (hx : x.IsIdentifier)
    (hbounds : Bounds (render qs).toList) :
    Echo code (name expected) x n (Piece.name x :: qs) n qs := by
  rw [hx.piece]
  refine ⟨.identifier hx hbounds, fun {u} hu => ?_⟩
  exact ⟨⟨x.text, u.currentSpan⟩, u.advance, reads_name.2 ⟨hu.current? (by simp), rfl, rfl⟩, rfl,
    hu.advance (by simp), u.log_advance⟩

end Echo

end Printed

end Grammar

end ApiScript
