import ApiScript.Proofs.Lexing.Embedded
import ApiScript.Proofs.Lexing.Lines
import Mathlib.Data.List.TakeWhile

set_option autoImplicit false
set_option relaxedAutoImplicit false

/-!
Nothing of a text is lost when it is read: its tokens tile it, with blanks alone in between.
-/

namespace ApiScript

/-- A text that begins at `offset` is blanks and the piece of a token in turn, up to the blanks at
its end. -/
private inductive Tiles : List Char → Nat → List Token → Prop
  | blank {gap : List Char} {offset : Nat} (h : gap.all Lexeme.isBlank = true) : Tiles gap offset []
  | token {gap piece rest : List Char} {offset : Nat} {t : Token} {ts : List Token}
    (hgap : gap.all Lexeme.isBlank = true) (hpiece : piece ≠ []) (hspan : t.span =
      ⟨offset + Text.byteSize gap, offset + Text.byteSize gap + Text.byteSize piece⟩)
    (hlexeme : t.lexeme = .invalid ∨ t.lexeme.spelling = String.ofList piece)
    (h : Tiles rest (offset + Text.byteSize gap + Text.byteSize piece) ts) :
    Tiles (gap ++ piece ++ rest) offset (t :: ts)

private theorem append_eq_append_cons {α : Type} {xs ys front behind : List α} {x : α}
    (h : xs ++ ys = front ++ x :: behind) :
    (∃ mid, xs = front ++ x :: mid ∧ behind = mid ++ ys) ∨ ∃ mid, front = xs ++ mid ∧
    ys = mid ++ x :: behind := by
  rcases List.append_eq_append_iff.1 h with ⟨mid, hfront, hys⟩ | ⟨mid, hxs, hbehind⟩
  · exact .inr ⟨mid, hfront, hys⟩
  · rcases List.cons_eq_append_iff.1 hbehind with ⟨rfl, hys⟩ | ⟨mid, rfl, hys⟩
    · exact .inr ⟨[], by rw [hxs, List.append_nil, List.append_nil], hys⟩
    · exact .inl ⟨mid, hxs, hys⟩

namespace Lexer

private theorem next?_none {l : Lexer} (h : l.next? = none) : l.rest.all Lexeme.isBlank = true := by
  rw [List.all_eq_true]
  exact List.dropWhile_eq_nil_iff.1 (next?_eq_none.1 h)

private theorem tokenize_tiles (l : Lexer) : Tiles l.rest l.offset l.tokenize.1 := by
  induction hlength : l.rest.length using Nat.strongRecOn generalizing l with
  | ind n ih =>
    cases hnext : l.next? with
    | none =>
      rw [tokenize_of_next?_none hnext]
      exact .blank (next?_none hnext)
    | some r =>
      obtain ⟨item, l'⟩ := r
      obtain ⟨gap, piece, hrest, hpiece, hgap, hspan, hoffset, hlexeme, -⟩ := next?_some hnext
      rw [tokenize_of_next? hnext, hrest]
      refine .token hgap hpiece hspan hlexeme ?_
      rw [← hoffset]
      exact ih _ (hlength ▸ next?_shorter hnext) l' rfl

private theorem steps_errors (bound : Nat) (l : Lexer) :
    (steps bound l).2.map (·.span) = ((steps bound l).1.filter (·.lexeme == .invalid)).map
      (·.span) := by
  induction bound generalizing l with
  | zero => rfl
  | succ bound ih =>
    cases hnext : l.next? with
    | none => rw [steps_of_none hnext, List.map_nil, List.filter_nil, List.map_nil]
    | some r =>
      obtain ⟨item, l'⟩ := r
      rw [steps_succ hnext, List.map_append, List.filter_cons, ih l']
      cases item with
      | ok t =>
        rw [itemToken, beq_eq_false_iff_ne.2 (next?_valid hnext)]
        rfl
      | error e => rfl

end Lexer

def Token.Holds (offset place : Nat) (c : Char) (t : Token) : Prop :=
  t.span.start ≤ offset + place ∧ offset + place + c.utf8Size ≤ t.span.stop

/-- The tokens of a text at `offset` are slices of it, in order, that leave out nothing but
blanks. -/
structure Covers (cs : List Char) (offset : Nat) (ts : List Token) : Prop where
  inside : ∀ t ∈ ts, offset ≤ t.span.start ∧ t.span.start < t.span.stop ∧ t.span.stop ≤ offset +
    Text.byteSize cs
  /-- Both ends are between two characters, and a token that carries a text carries the text of its
  span. -/
  spelled : ∀ t ∈ ts, ∃ piece,
    Text.slice? (t.span.start - offset) (t.span.stop - offset) cs = some piece ∧
    (t.lexeme = .invalid ∨ t.lexeme.spelling = String.ofList piece)
  increasing : ts.Pairwise fun t u => t.span.start < u.span.start
  disjoint : ts.Pairwise fun t u => t.span.stop ≤ u.span.start
  gaps : ∀ front c behind, cs = front ++ c :: behind →
    (∀ t ∈ ts, ¬ t.Holds offset (Text.byteSize front) c) →
    c ∈ [' ', '\t', '\r', '\n', '\x0c']

namespace Tiles

variable {cs : List Char} {offset : Nat} {ts : List Token}

private theorem placed (h : Tiles cs offset ts) :
    ∀ t ∈ ts, ∃ front piece behind, cs = front ++ piece ++ behind ∧ piece ≠ [] ∧
    t.span = ⟨offset + Text.byteSize front, offset + Text.byteSize front + Text.byteSize piece⟩ ∧
    (t.lexeme = .invalid ∨ t.lexeme.spelling = String.ofList piece) := by
  induction h with
  | blank => exact fun _ ht => absurd ht List.not_mem_nil
  | @token gap piece rest offset t ts _ hpiece hspan hlexeme _ ih =>
    refine List.forall_mem_cons.2 ⟨⟨gap, piece, rest, rfl, hpiece, hspan, hlexeme⟩, fun u hu => ?_⟩
    obtain ⟨front, mid, behind, rfl, hmid, huspan, hulexeme⟩ := ih u hu
    refine ⟨gap ++ piece ++ front, mid, behind, by simp, hmid, ?_, hulexeme⟩
    simp only [huspan, Text.byteSize_append, Nat.add_assoc]

private theorem ordered (h : Tiles cs offset ts) :
    ts.Pairwise fun t u => t.span.start < t.span.stop ∧ t.span.stop ≤ u.span.start := by
  induction h with
  | blank => exact .nil
  | token _ hpiece hspan _ h ih =>
    refine List.pairwise_cons.2 ⟨fun u hu => ?_, ih⟩
    obtain ⟨front, _, _, _, _, huspan, _⟩ := h.placed u hu
    have hpos := Text.byteSize_pos hpiece
    rw [hspan, huspan]
    exact ⟨Nat.lt_add_of_pos_right hpos, Nat.le_add_right _ _⟩

private theorem gaps (h : Tiles cs offset ts) {front behind : List Char} {c : Char}
    (hcs : cs = front ++ c :: behind) (hc : ∀ t ∈ ts, ¬ t.Holds offset (Text.byteSize front) c) :
    Lexeme.isBlank c = true := by
  induction h generalizing front behind with
  | blank hgap =>
    rw [hcs, List.all_append, List.all_cons, Bool.and_eq_true, Bool.and_eq_true] at hgap
    exact hgap.2.1
  | @token gap piece rest offset t ts hgap _ hspan _ _ ih =>
    obtain ⟨hhead, htail⟩ := List.forall_mem_cons.1 hc
    rw [List.append_assoc] at hcs
    rcases append_eq_append_cons hcs with ⟨mid, rfl, -⟩ | ⟨mid, rfl, hpieces⟩
    · rw [List.all_append, List.all_cons, Bool.and_eq_true, Bool.and_eq_true] at hgap
      exact hgap.2.1
    rcases append_eq_append_cons hpieces with ⟨inner, rfl, -⟩ | ⟨inner, rfl, hrest⟩
    · refine absurd ?_ hhead
      simp only [Token.Holds, hspan, Text.byteSize_append, Text.byteSize_cons]
      omega
    · refine ih hrest fun u hu hholds => htail u hu ?_
      simpa only [Token.Holds, Text.byteSize_append, Nat.add_assoc] using hholds

private theorem covers (h : Tiles cs offset ts) : Covers cs offset ts where
  inside := by
    intro t ht
    obtain ⟨front, piece, behind, rfl, hpiece, hspan, -⟩ := h.placed t ht
    have hpos := Text.byteSize_pos hpiece
    simp only [hspan, Text.byteSize_append]
    omega
  spelled := by
    intro t ht
    obtain ⟨front, piece, behind, rfl, -, hspan, hlexeme⟩ := h.placed t ht
    refine ⟨piece, ?_, hlexeme⟩
    rw [hspan, Nat.add_assoc, Nat.add_sub_cancel_left, Nat.add_sub_cancel_left, Text.slice?_append]
  increasing := h.ordered.imp fun h => h.1.trans_le h.2
  disjoint := h.ordered.imp And.right
  gaps := by
    intro front c behind hcs hc
    have hblank := h.gaps hcs hc
    simpa only [Lexeme.isBlank, Bool.or_eq_true, beq_iff_eq, or_assoc, List.mem_cons,
      List.not_mem_nil, or_false]
      using hblank

end Tiles

/-- Reading a text loses nothing of it: the tokens, the invalid ones included, are slices in order
of all of it but blanks, the errors are those of the invalid ones, and where the text is found
changes the spans alone. -/
theorem tokenize_covers (source : String) (offset : Nat) :
    Covers source.toList offset (Lexer.ofString source offset).tokenize.1 ∧
      (Lexer.ofString source offset).tokenize.2.map (·.span) =
        ((Lexer.ofString source offset).tokenize.1.filter (·.lexeme == .invalid)).map (·.span) ∧
      (Lexer.ofString source offset).tokenize =
        ((Lexer.ofString source 0).tokenize.1.map (Token.respan (Span.shift offset)),
          (Lexer.ofString source 0).tokenize.2.map (LexicalError.respan (Span.shift offset))) := by
  have hshift := Lexer.tokenize_shift source.toList 0 offset
  rw [Nat.zero_add] at hshift
  exact ⟨(Lexer.tokenize_tiles (Lexer.ofString source offset)).covers,
    Lexer.steps_errors _ _, hshift⟩

end ApiScript
