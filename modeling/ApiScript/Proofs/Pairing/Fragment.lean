import ApiScript.Proofs.Lexing.Embedded
import ApiScript.Proofs.Lexing.Lines
import ApiScript.Proofs.Pairing.Agree

set_option autoImplicit false
set_option relaxedAutoImplicit false

/-!
The same text read at two places that belong together: code embedded in a string, whose tokens,
errors and spans are told from the start of the string.
-/

namespace ApiScript.Grammar

open Placed

/-- How the places in embedded code belong together, where everything may be read. -/
abbrev Regime.inside (R : Regime) : Regime :=
  { R with
    fence := .atEnd R.fence.bound
    before := []
    before' := []
    log := []
    log' := [] }

/-- Code of a string found at two places, at the same distance from the starts of spans that belong
together. -/
inductive Regime.Codes (R : Regime) (source : String) : Nat → Nat → Prop
  | mk {a a' : Span} (distance : Nat) (same : R.Same a a')
    (bound : a.start + (distance + 2) + Text.byteSize source.toList ≤ R.fence.bound) :
    R.Codes source (a.start + (distance + 2)) (a'.start + (distance + 2))

namespace Regime.Codes

variable {R : Regime} {source : String} {offset offset' : Nat}

private theorem shift (h : R.Codes source offset offset') (s : Span) :
    R.Same (s.shift offset) (s.shift offset') := by
  cases h with
  | mk distance same _ =>
    have hwithin := R.within same (s.start + (distance + 2)) (s.stop + (distance + 2))
    simpa only [Regime.Same, respan, Span.shift, Nat.add_left_comm, Nat.add_comm] using hwithin

theorem braces (h : R.Codes source offset offset') (n : Nat) :
    R.Same (⟨offset - 2, offset + n⟩ : Span) ⟨offset' - 2, offset' + n⟩ := by
  cases h with
  | mk distance same _ =>
    have hwithin := R.within same distance (distance + 2 + n)
    simpa only [Regime.Same, respan, Nat.add_assoc, Nat.add_sub_cancel, ← Nat.add_assoc]
      using hwithin

theorem le (h : R.Codes source offset offset') :
    offset + Text.byteSize source.toList ≤ R.fence.bound := by
  cases h with
  | mk distance _ bound => exact bound

end Regime.Codes

section Start

variable {R : Regime} {source : String} {offset offset' : Nat}

theorem State.ofString_shift (source : String) (offset : Nat) :
    (State.ofString source offset).after = (State.ofString source 0).after.map
      (Token.respan (.shift offset)) ∧
      (State.ofString source offset).log = (State.ofString source 0).log.map
        (Diagnostic.respan (.shift offset)) ∧
      (State.ofString source offset).broken = (State.ofString source 0).broken := by
  have htokenize := Lexer.tokenize_shift source.toList 0 offset
  rw [Nat.zero_add] at htokenize
  simp only [State.ofString, Lexer.ofString, Lexer.tokenizeFiltered, htokenize, List.filter_map,
    List.map_map]
  refine ⟨rfl, rfl, ?_⟩
  rw [List.any_map]
  rfl

private theorem same_map {α : Type} [Placed α] {f f' : Span → Span} {as : List α}
    (h : ∀ a ∈ as, R.Same (respan f a) (respan f' a)) :
    R.Same (as.map (respan f)) (as.map (respan f')) := by
  simpa only [Regime.Same, respan, List.map_map, List.map_inj_left, Function.comp_apply] using h

theorem seams_map (f f' : Span → Span) (h : ∀ a b, (f a).touches (f b) = (f' a).touches (f' b))
    (ts : List Token) :
    Seams (ts.map (Token.respan f)) (ts.map (Token.respan f')) := by
  induction ts with
  | nil => trivial
  | cons t ts ih =>
    refine ⟨?_, ih⟩
    cases ts with
    | nil => trivial
    | cons u ts =>
      refine ⟨fun _ => h _ _, fun _ _ _ => ?_⟩
      cases ts with
      | nil => trivial
      | cons v ts =>
        cases ts with
        | nil => trivial
        | cons w ts => exact fun _ => h _ _

theorem State.ofString_size_le {source : String} {offset : Nat} {t : Token}
    (h : t ∈ (State.ofString source offset).after) :
    t.span.start + Text.byteSize t.lexeme.spelling.toList ≤ offset +
      Text.byteSize source.toList := by
  obtain ⟨front, mid, behind, htext, _, hspan, hlexeme, _⟩ :=
    (State.ofString_at source offset).1 t h
  have hspelling : Text.byteSize t.lexeme.spelling.toList ≤ Text.byteSize mid := by
    rcases hlexeme with hinvalid | hspelling
    · rw [hinvalid]
      exact Nat.zero_le _
    · exact Nat.le_of_eq (by rw [hspelling, String.toList_ofList])
  rw [hspan, htext]
  simp only [Text.byteSize_append]
  omega

theorem State.ofString_log_le {source : String} {offset : Nat} {d : Diagnostic}
    (h : d ∈ (State.ofString source offset).log) :
    d.span.start ≤ offset + Text.byteSize source.toList := by
  obtain ⟨e, he, rfl⟩ := List.mem_map.1 h
  exact Lexer.tokenize_errors_within _ _ e he

theorem Regime.Codes.twins (h : R.Codes source offset offset') :
    Twins R.inside false (State.ofString source offset) (State.ofString source offset') := by
  obtain ⟨hafter, hlog, hbroken⟩ := State.ofString_shift source offset
  obtain ⟨hafter', hlog', hbroken'⟩ := State.ofString_shift source offset'
  have hsize : source.utf8ByteSize = Text.byteSize source.toList := Text.utf8ByteSize_eq source
  have hholds : R.inside.fence.Holds (State.ofString source offset) := by
    refine ⟨_, (List.append_nil _).symm, fun x hx => Nat.le_trans (State.ofString_size_le hx) h.le,
      fun _ => ?_, fun h => absurd rfl h, fun h => absurd rfl h, fun h => absurd rfl h⟩
    have hle := h.le
    rwa [← hsize] at hle
  refine ⟨hholds, by rw [hbroken, hbroken'], ?_, ?_, ?_, ⟨[], [], rfl, rfl, rfl, nofun⟩, ?_⟩
  · rw [hafter, hafter']
    exact same_map fun t _ => by simpa [Regime.Same, respan, Token.respan] using h.shift t.span
  · rw [hafter, hafter']
    exact seams_map _ _ (fun a b => by rw [Span.touches_shift, Span.touches_shift]) _
  · simpa [Regime.Same, respan, Span.shift, Span.point, State.ofString, Nat.add_comm] using h.shift
      (.point source.utf8ByteSize)
  · refine ⟨_, _, (List.nil_append _).symm, (List.nil_append _).symm, ?_, fun d hd => ?_⟩
    · rw [hlog, hlog']
      refine same_map fun d hd => ?_
      obtain ⟨e, _, rfl⟩ := List.mem_map.1 hd
      simpa [Regime.Same, respan, Diagnostic.respan, Diagnostic.ofLexical, Problem.respan]
        using h.shift e.span
    · exact Nat.le_trans (State.ofString_log_le hd) h.le

end Start

end ApiScript.Grammar
