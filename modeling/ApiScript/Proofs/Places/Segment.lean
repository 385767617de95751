import ApiScript.Proofs.Lexing.Elements
import ApiScript.Proofs.Lexing.WellSpelled
import ApiScript.Proofs.Places.Fault
import ApiScript.Proofs.Shape.Literal

set_option autoImplicit false
set_option relaxedAutoImplicit false

/-!
The segments of a string that the lexer found: its code ends where the lexer passed it, so nothing
but an escape sequence can be at fault, and its segments are what the source shows.
-/

namespace ApiScript

namespace Quoted

private theorem split_error_of_closed {raw : String}
    (h : (Lexeme.string .interpolated raw).WellSpelled) {span : Span} {e : LexicalError}
    (he : split raw span = .error e) : ∃ sequence rule, e.fault = .invalidEscape sequence rule := by
  obtain ⟨closed, hraw, hclosed⟩ := h
  obtain ⟨body, hbody⟩ := Enclosure.closing?_closer hclosed rfl
  rw [List.take_length] at hbody
  subst hbody
  rw [List.length_append, List.length_singleton] at hclosed
  have hquoted : raw.toList = '"' :: (body ++ ['"']) := hraw
  rw [split, hquoted, unquote?_concat] at he
  dsimp only at he
  rw [splitFrom_nil] at he
  exact elementsWithin_error_of_closed hclosed (error_of_map he)

/-- The segments as a text at `offset` shows them: texts are joined as far as the code between them
allows, and the code stands in order between braces. -/
structure Segmented (cs : List Char) (offset : Nat) (segments : List Segment) : Prop where
  joined : Text.Joined (segments.map Segment.text?)
  ordered : (segments.filterMap Segment.code?).Pairwise fun a b =>
    a.2 + Text.byteSize a.1.toList ≤ b.2
  braced : ∀ code start, .code code start ∈ segments → ∃ front behind,
    cs = front ++ (['$', '{'] ++ code.toList ++ ['}']) ++ behind ∧
    start = offset + Text.byteSize front + 2

private theorem Segmented.behind {cs : List Char} {offset : Nat} {segments : List Segment}
    {front : List Char} (h : Segmented cs (offset + Text.byteSize front) segments)
    (rest : List Char) :
    Segmented (front ++ cs ++ rest) offset segments where
  joined := h.joined
  ordered := h.ordered
  braced code start hc := by
    obtain ⟨left, right, rfl, rfl⟩ := h.braced code start hc
    exact ⟨front ++ left, right ++ rest, by simp only [List.append_assoc],
      by rw [Text.byteSize_append, Nat.add_assoc offset]⟩

theorem split_segmented {raw : String} {span : Span} {segments : List Segment}
    (h : split raw span = .ok segments) :
    Segmented raw.toList span.start segments where
  joined := split_joined h
  ordered := (split_laid h).ordered
  braced _ _ hc := split_code_from h hc

end Quoted

namespace Lexer

open Quoted

/-- A string that the lexer has found is split, or one of its escape sequences is at fault. -/
theorem split_of_tokenize (source : String) (offset : Nat) {t : Token} {raw : String}
    (ht : t ∈ (ofString source offset).tokenize.1) (hl : t.lexeme = .string .interpolated raw) :
    (∃ segments, split raw t.span = .ok segments ∧ Segmented source.toList offset segments) ∨
      ∃ sequence rule span, split raw t.span = .error ⟨.invalidEscape sequence rule, span⟩ := by
  cases hsplit : split raw t.span with
  | ok segments =>
    obtain ⟨front, behind, hsource, hspan⟩ :=
      ((steps_at source.toList.length (ofString source offset)).1 t ht).string hl
    have hsegmented := split_segmented hsplit
    rw [hspan] at hsegmented
    refine .inl ⟨segments, rfl, ?_⟩
    rw [show source.toList = front ++ raw.toList ++ behind from hsource]
    exact hsegmented.behind behind
  | error e =>
    have hspelled := (tokenize_wellSpelled _ _ t ht).resolve_left (by rw [hl]; nofun)
    rw [hl] at hspelled
    obtain ⟨sequence, rule, hfault⟩ := split_error_of_closed hspelled hsplit
    exact .inr ⟨sequence, rule, e.span, by rw [← hfault]⟩

/-- Braces in a string and in a comment of the code. -/
theorem split_of_tokenize_of_braces :
    let raw := "\"é$\x7bf(\"\x7d\")\x7d$\x7b/*\x7d*/1\x7d\\x41\""
    let source := "f(" ++ raw ++ ")"
    let t : Token := ⟨.string .interpolated raw, ⟨5, 31⟩⟩
    t ∈ (ofString source 3).tokenize.1 ∧
      split raw t.span = .ok [.text "é", .code "f(\"\x7d\")" 10, .code "/*\x7d*/1" 19, .text "A"] ∧
      ((∃ segments, split raw t.span = .ok segments ∧ Segmented source.toList 3 segments) ∨
        ∃ sequence rule span, split raw t.span = .error ⟨.invalidEscape sequence rule, span⟩) := by
  intro raw source t
  have ht : t ∈ (ofString source 3).tokenize.1 := by decide +kernel
  exact ⟨ht, by decide +kernel, split_of_tokenize source 3 ht rfl⟩

end Lexer

end ApiScript
