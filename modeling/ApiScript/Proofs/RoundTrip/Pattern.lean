import ApiScript.Proofs.RoundTrip.Literal
import ApiScript.Proofs.Spans.Placed

set_option autoImplicit false
set_option relaxedAutoImplicit false

/-!
Patterns as they are read from texts, and what they are written as: no lexeme of a pattern runs into
what is written behind it, neither a digit into the mark of a range nor that into a sign.
-/

namespace ApiScript

open Piece

/-- A pattern as it is read: its names and keys are identifiers, a name that binds is no wildcard, a
range has a bound, and its literals are as they are read. -/
inductive Pattern.Writable : Pattern → Prop
  | name {n : Name} (h : n.Plain) (hname : n.text ≠ "_") : Writable (.name n)
  | wildcard (span : Span) : Writable (.wildcard span)
  | literal {l : Literal} (h : l.Writable) : Writable (.literal l)
  | array {span : Span} {elements : List Pattern} (h : ∀ p ∈ elements, Writable p) :
    Writable (.array span elements)
  | object {span : Span} {fields : List FieldPattern} (hkeys : ∀ f ∈ fields, f.key.Plain)
    (h : ∀ f ∈ fields, ∀ p ∈ f.pattern, Writable p) : Writable (.object span fields)
  | range {span : Span} {start stop : Option Literal} {inclusive : Bool}
    (hbound : start.isSome = true ∨ stop.isSome = true) (hstart : ∀ l ∈ start, l.Writable)
    (hstop : ∀ l ∈ stop, l.Writable) : Writable (.range span start stop inclusive)

def Pattern.bare (p : Pattern) : Pattern := p.respan fun _ => .nowhere

def FieldPattern.bare (f : FieldPattern) : FieldPattern := f.respan fun _ => .nowhere

section Bare

theorem Pattern.bare_literal (l : Literal) : (literal l).bare = .literal l.bare := by
  rw [bare, respan]
  rfl

theorem Pattern.bare_array (span : Span) (ps : List Pattern) :
    (array span ps).bare = .array .nowhere (ps.map bare) := by
  rw [bare, respan, respanAll_eq_map]
  rfl

theorem Pattern.bare_object (span : Span) (fields : List FieldPattern) :
    (object span fields).bare = .object .nowhere (fields.map FieldPattern.bare) := by
  rw [bare, respan, FieldPattern.respanAll_eq_map]
  rfl

theorem Pattern.bare_range {span span' : Span} {start start' stop stop' : Option Literal}
    {inclusive : Bool} (hstart : start.map Literal.bare = start'.map Literal.bare)
    (hstop : stop.map Literal.bare = stop'.map Literal.bare) :
    (range span start stop inclusive).bare = (range span' start' stop' inclusive).bare := by
  rw [bare, bare, respan_range, respan_range]
  exact congrArg₂ (fun start stop => range .nowhere start stop inclusive) hstart hstop

theorem FieldPattern.bare_mk {key key' : Name} {pattern pattern' : Option Pattern}
    {span span' : Span} (hkey : key.text = key'.text)
    (h : pattern.map Pattern.bare = pattern'.map Pattern.bare) :
    (FieldPattern.mk key pattern span).bare = (FieldPattern.mk key' pattern' span').bare := by
  rw [bare, bare, respan_mk, respan_mk, Name.respan, Name.respan, hkey]
  exact congrArg (fun pattern => FieldPattern.mk _ pattern _) h

end Bare

section Layout

theorem Pattern.layoutAll_eq (indent : Nat) (ps : List Pattern) :
    Pattern.layoutAll indent ps = commaSeparated (Pattern.layout indent) ps := by
  induction ps with
  | nil => rfl
  | cons p ps ih => rw [Pattern.layoutAll, commaSeparated, ih]

def FieldPattern.layout (indent : Nat) : FieldPattern → List Piece
  | ⟨key, none, _⟩ => [Piece.name key]
  | ⟨key, some p, _⟩ => Piece.name key :: ([symbol .colon, space] ++ p.layout indent)

theorem Pattern.layoutFields_eq (indent : Nat) (fields : List FieldPattern) :
    Pattern.layoutFields indent fields = commaSeparated (FieldPattern.layout indent) fields := by
  induction fields with
  | nil => rfl
  | cons field fields ih =>
    obtain ⟨key, pattern, span⟩ := field
    cases pattern with
    | none => rw [Pattern.layoutFields, commaSeparated, ih, FieldPattern.layout]
    | some p => rw [Pattern.layoutFields, commaSeparated, ih, FieldPattern.layout]

def Piece.bound (l : Option Literal) : List Piece := l.elim [] (Literal.layout 0)

theorem Pattern.layout_range (span : Span) (start stop : Option Literal) (inclusive : Bool) :
    (Pattern.range span start stop inclusive).layout 0 = bound start ++ [rangeMark inclusive] ++
      bound stop := by
  cases start <;> cases stop <;> rw [layout] <;> rfl

end Layout

section Clear

variable {rest : List Char}

private theorem Name.Plain.clear {n : Name} (h : n.Plain) (hrest : Bounds rest) :
    Clear [Piece.name n] rest := by
  rw [Piece.name, Name.lexeme, h.identifier]
  exact ⟨⟨⟨h.word, (Lexeme.ofWord_eq_identifier.1 h.identifier).2⟩, rfl, hrest⟩, trivial⟩

private theorem Piece.clear_rangeMark (inclusive : Bool) (h : Begins rest) :
    Clear [rangeMark inclusive] rest := by
  refine ⟨⟨trivial, rfl, h.stops ?_⟩, trivial⟩
  cases inclusive <;> simp [Symbol.growsBy]

private theorem Piece.ends_at_rangeMark (inclusive : Bool) (rest : List Char) :
    Bounds ((render [rangeMark inclusive]).toList ++ rest) ∧
      Rule.goesOn ((render [rangeMark inclusive]).toList ++ rest) = false := by
  obtain ⟨cs, hmark⟩ : ∃ cs, (rangeMark inclusive).text.toList = '.' :: '.' :: cs := by
    cases inclusive <;> exact ⟨_, rfl⟩
  rw [render_cons, hmark]
  exact ⟨bounds_cons (by decide), rfl⟩

private theorem Piece.clear_bound {l : Option Literal} (h : ∀ l' ∈ l, l'.Writable)
    (hword : Bounds rest) (hnumber : Rule.goesOn rest = false) : Clear (bound l) rest := by
  cases l with
  | none => trivial
  | some l => exact (h l rfl).clear hword hnumber

private theorem FieldPattern.clear {f : FieldPattern} (hkey : f.key.Plain)
    (h : ∀ p ∈ f.pattern, ∀ rest, Sealed rest → Clear (p.layout 0) rest) (hrest : Sealed rest) :
    Clear (f.layout 0) rest := by
  obtain ⟨key, pattern, span⟩ := f
  cases pattern with
  | none => exact hkey.clear hrest.bounds
  | some p =>
    have hcolon : Clear [symbol .colon, space] ((render (p.layout 0)).toList ++ rest) := by
      refine ⟨⟨trivial, rfl, ?_⟩, trivial⟩
      rintro c ⟨⟩
      rfl
    rw [layout, ← List.singleton_append, clear_append, clear_append]
    exact ⟨hkey.clear (bounds_render ':' rfl (by decide)), hcolon, h p rfl rest hrest⟩

theorem Pattern.Writable.clear {p : Pattern} (h : p.Writable) (hrest : Sealed rest) :
    Clear (p.layout 0) rest := by
  induction h generalizing rest with
  | name h =>
    rw [layout]
    exact h.clear hrest.bounds
  | wildcard span =>
    have hword : Lexeme.IsIdentifier "_" := ⟨⟨⟨'_', [], rfl, rfl⟩, rfl⟩, by decide⟩
    rw [layout]
    exact ⟨⟨hword, rfl, hrest.bounds⟩, trivial⟩
  | literal h =>
    rw [layout]
    exact h.clear hrest.bounds hrest.not_goesOn
  | array h ih =>
    rw [layout, layoutAll_eq, clear_append, clear_append]
    refine ⟨⟨clear_symbol rfl _, clear_commaSeparated ?_ (sealed_render rfl (by decide))⟩,
      clear_symbol rfl _⟩
    exact fun p hp rest hrest => ih p hp hrest
  | object hkeys h ih =>
    rw [layout, layoutFields_eq, clear_append, clear_append]
    refine ⟨⟨clear_symbol rfl _, clear_commaSeparated ?_ (sealed_render rfl (by decide))⟩,
      clear_symbol rfl _⟩
    exact fun f hf rest hrest =>
      FieldPattern.clear (hkeys f hf) (fun p hp rest hrest => ih f hf p hp hrest) hrest
  | @range span start stop inclusive hbound hstart hstop =>
    rw [layout_range, clear_append, clear_append]
    refine ⟨⟨?_, ?_⟩, ?_⟩
    · obtain ⟨hword, hnumber⟩ := ends_at_rangeMark inclusive ((render (bound stop)).toList ++ rest)
      exact clear_bound hstart hword hnumber
    · refine clear_rangeMark inclusive ?_
      cases stop with
      | none => exact hrest.begins
      | some l => exact (hstop l rfl).begins.append rest
    · exact clear_bound hstop hrest.bounds hrest.not_goesOn

end Clear

end ApiScript
