import ApiScript.Proofs.Pairing.Layout
import ApiScript.Proofs.RoundTrip.Literal
import ApiScript.Proofs.Spelling.Lexemes
import ApiScript.Proofs.Value.Number
import ApiScript.Value.Basic

set_option autoImplicit false
set_option relaxedAutoImplicit false

/-!
The value of a literal is told by its lexemes: neither its place nor the tree that it stands in has
a part in it. It is equal to itself.
-/

namespace ApiScript

open Grammar

private theorem Grammar.Regime.Answers.ok_left {α β : Type} {R : Regime}
    {same : α → β → Prop} {a : α} {r : Except LexicalError β} (h : R.Answers same (.ok a) r) :
    ∃ b, r = .ok b ∧ same a b := by
  generalize hl : (Except.ok a : Except LexicalError α) = l at h
  cases h with
  | ok hsame =>
    cases hl
    exact ⟨_, rfl, hsame⟩
  | error => cases hl

private theorem ok_of_toOption {α : Type} {r : Except LexicalError α} {a : α}
    (h : r.toOption = some a) : r = .ok a := by
  cases r with
  | ok b => exact congrArg _ (Option.some.inj h)
  | error => cases h

private abbrev Grammar.Regime.anywhere (bound : Nat) : Regime :=
  { Regime.bare "" with fence := .atEnd bound }

namespace Quoted

variable {raw : String} {span : Span}

def plain? : List Segment → Option String
  | [] => some ""
  | [.text text] => some text
  | _ => none

private theorem split_anywhere {segments : List Segment} (h : split raw span = .ok segments)
    (span' : Span) :
    (split raw span').toOption.bind plain? = plain? segments := by
  obtain ⟨segments', hsplit, hsame⟩ :=
    (h ▸ @answers_split (.anywhere _) span span' raw rfl (Nat.le_refl _)).ok_left
  rw [hsplit]
  cases hsame with
  | nil => rfl
  | cons hfirst hrest => cases hrest <;> cases hfirst <;> rfl

private theorem decodeSimple_anywhere {text : String} (h : decodeSimple raw span = .ok text)
    (span' : Span) :
    decodeSimple raw span' = .ok text := by
  obtain ⟨text', hdecode, rfl⟩ :=
    (h ▸ @answers_decodeSimple (.anywhere _) span span' raw rfl (Nat.le_refl _)).ok_left
  exact hdecode

private theorem decodeBytes_anywhere {bs : List UInt8} (h : decodeBytes raw span = .ok bs)
    (span' : Span) :
    decodeBytes raw span' = .ok bs := by
  obtain ⟨bs', hdecode, rfl⟩ :=
    (h ▸ @answers_decodeBytes (.anywhere _) span span' raw rfl (Nat.le_refl _)).ok_left
  exact hdecode

private theorem plain?_of_spelled {lax : Bool} {quote : Quote} {parts : List StringPart}
    {span : Span} {segments : List Segment}
    (h : Part.SpelledAll lax (StringPart.marksEach parts) segments) :
    StringLiteral.plain? ⟨quote, parts, span⟩ = plain? segments := by
  match parts with
  | [] =>
    obtain rfl : segments = [] := h
    rfl
  | [.text text] =>
    obtain ⟨_, rfl, rfl⟩ := h
    rfl
  | .code e :: parts =>
    obtain ⟨source, offset, rest, rfl, -⟩ := h
    cases parts <;> rfl
  | .text text :: .text text' :: parts =>
    obtain ⟨_, rfl, _, rfl, -⟩ := h
    rfl
  | .text text :: .code e :: parts =>
    obtain ⟨_, rfl, _, _, _, rfl, -⟩ := h
    rfl

private theorem plain?_of_marks {quote : Quote} {parts : List StringPart} {span : Span}
    {text : String} (h : StringPart.marksEach parts = Part.ofText text) :
    StringLiteral.plain? ⟨quote, parts, span⟩ = some text := by
  unfold Part.ofText at h
  split at h
  · rename_i hempty
    cases parts with
    | nil => rw [String.isEmpty_iff.1 hempty]; rfl
    | cons part parts => cases part <;> cases h
  · match parts with
    | [] => cases h
    | .code e :: parts => cases h
    | [.text text'] =>
      cases h
      rfl
    | .text text' :: part :: parts => cases part <;> cases h

end Quoted

def Numeral.value? (raw : String) : NumberClass → Option Value
  | .integer => (Numeral.integer raw .nowhere).toOption.map .int
  | .float => (Numeral.float raw .nowhere).toOption.map .float
  | .duration =>
    (Numeral.duration raw .nowhere).toOption.map fun (x, unit) => .float (x.mul unit.inSeconds)
  | .size => (Numeral.size raw .nowhere).toOption.map fun (x, unit) =>
    .float (x.mul (.ofInt unit.inBytes))

namespace Lexeme

/-- The lexemes of a literal: a minus sign or none, and one lexeme more. -/
def signed (negative : Bool) (found : Lexeme) : List Lexeme :=
  (if negative then [.symbol .minus] else []) ++ [found]

def value? (negative : Bool) : Lexeme → Option Value
  | number kind text => Numeral.value? (if negative then "-" ++ text else text) kind
  | string .interpolated raw => ((Quoted.split raw .nowhere).toOption.bind Quoted.plain?).map .text
  | string .simple raw => (Quoted.decodeSimple raw .nowhere).toOption.map .text
  | string .bytes raw => (Quoted.decodeBytes raw .nowhere).toOption.map .bytes
  | keyword .true_ => some (.bool true)
  | keyword .false_ => some (.bool false)
  | keyword .null => some .null
  | _ => none

end Lexeme

namespace Literal

open Mark

variable {source : String} {l l' : Literal} {ls ls' : List Lexeme}

private theorem number_spelled {kind : NumberClass} {raw : String}
    (h : SpelledBy (Mark.number kind raw) ls) :
    ∃ negative text, ls = Lexeme.signed negative (.number kind text) ∧
      (Lexeme.number kind text).value? negative = Numeral.value? raw kind := by
  unfold Mark.number at h
  split at h
  · rename_i digits hraw
    obtain ⟨rest, rfl, hrest⟩ := h.lexeme
    obtain ⟨rest, rfl, hnil⟩ := hrest.lexeme
    obtain rfl := hnil.nil
    have hsigned : "-" ++ String.ofList digits = raw := by
      rw [← String.toList_inj, hraw]
      simp [String.toList_append]
    exact ⟨true, String.ofList digits, rfl, congrArg (Numeral.value? · kind) hsigned⟩
  · obtain ⟨rest, rfl, hnil⟩ := h.lexeme
    obtain rfl := hnil.nil
    exact ⟨false, raw, rfl, rfl⟩

/-- A literal is one lexeme behind a minus sign or none, which tell its value. -/
theorem value_of_spelled (hl : l.Faithful source) (h : SpelledBy l.marks ls) : ∃ negative found,
    ls = Lexeme.signed negative found ∧ found.isLiteral = true ∧
      Value.ofLiteral? l = found.value? negative := by
  have hkeyword {k : Keyword} (h : SpelledBy [Mark.keyword k] ls) :
      ls = Lexeme.signed false (.keyword k) := by
    obtain ⟨rest, rfl, hnil⟩ := h.lexeme
    rw [hnil.nil]
    rfl
  have hnumber {kind : NumberClass} {raw : String} (h : SpelledBy (Mark.number kind raw) ls)
      (hvalue : Value.ofLiteral? l = Numeral.value? raw kind) : ∃ negative found,
      ls = Lexeme.signed negative found ∧ found.isLiteral = true ∧
        Value.ofLiteral? l = found.value? negative := by
    obtain ⟨negative, text, rfl, htext⟩ := number_spelled h
    exact ⟨negative, _, rfl, rfl, hvalue.trans htext.symm⟩
  cases l with
  | null s =>
    rw [Literal.marks] at h
    exact ⟨false, _, hkeyword h.node, rfl, rfl⟩
  | bool s value =>
    rw [Literal.marks] at h
    refine ⟨false, _, hkeyword h.node, ?_⟩
    cases value <;> exact ⟨rfl, rfl⟩
  | integer s raw value =>
    rw [Literal.marks] at h
    refine hnumber h.node ?_
    rw [Numeral.value?, Numeral.integer_anywhere hl.2 .nowhere]
    rfl
  | float s raw value =>
    rw [Literal.marks] at h
    refine hnumber h.node ?_
    rw [Numeral.value?, Numeral.float_anywhere hl.2 .nowhere]
    rfl
  | duration s raw value unit =>
    rw [Literal.marks] at h
    refine hnumber h.node ?_
    rw [Numeral.value?, Numeral.duration, Numeral.quantity_anywhere hl.2 .nowhere]
    rfl
  | size s raw value unit =>
    rw [Literal.marks] at h
    refine hnumber h.node ?_
    rw [Numeral.value?, Numeral.size, Numeral.quantity_anywhere hl.2 .nowhere]
    rfl
  | string string =>
    obtain ⟨quote, parts, s⟩ := string
    rw [Literal.marks, StringLiteral.marks] at h
    obtain ⟨ts, rest, hspelled, rfl, -⟩ := h.node.node
    rw [spelledAll_singleton] at hspelled
    cases quote with
    | double =>
      obtain ⟨t, raw, segments, rfl, hlexeme, hsplit, hparts⟩ := hspelled
      refine ⟨false, t.lexeme, rfl, hlexeme ▸ rfl, ?_⟩
      rw [hlexeme, Lexeme.value?, Quoted.split_anywhere hsplit, Value.ofLiteral?,
        Quoted.plain?_of_spelled hparts]
    | single =>
      obtain ⟨t, raw, text, rfl, hlexeme, hdecode, hparts⟩ := hspelled
      refine ⟨false, t.lexeme, rfl, hlexeme ▸ rfl, ?_⟩
      rw [hlexeme, Lexeme.value?, Quoted.decodeSimple_anywhere hdecode .nowhere, Value.ofLiteral?,
        Quoted.plain?_of_marks hparts]
      rfl
  | bytes s value =>
    rw [Literal.marks] at h
    obtain ⟨ts, rest, hspelled, rfl, -⟩ := h.node
    rw [spelledAll_singleton] at hspelled
    obtain ⟨t, raw, rfl, hlexeme, hdecode⟩ := hspelled
    refine ⟨false, t.lexeme, rfl, hlexeme ▸ rfl, ?_⟩
    rw [hlexeme, Lexeme.value?, Quoted.decodeBytes_anywhere hdecode .nowhere]
    rfl

end Literal

theorem Lexeme.equivalent_value {found : Lexeme} (hfound : found.Genuine) {negative : Bool}
    {v : Value} (h : found.value? negative = some v) : v.equivalent v = true := by
  have hfloat {x : Binary64} (hx : x ≠ .nan) : (Value.float x).equivalent (.float x) = true :=
    Binary64.eq_self hx
  cases found with
  | number kind text =>
    unfold value? Numeral.value? at h
    cases kind with
    | integer =>
      obtain ⟨n, -, rfl⟩ := Option.map_eq_some_iff.1 h
      simp [Value.equivalent]
    | float =>
      obtain ⟨x, hx, rfl⟩ := Option.map_eq_some_iff.1 h
      exact hfloat (Numeral.float_ne_nan hfound (ok_of_toOption hx))
    | duration =>
      obtain ⟨⟨x, unit⟩, hx, rfl⟩ := Option.map_eq_some_iff.1 h
      exact hfloat (unit.mul_inSeconds (Numeral.quantity_ne_nan (ok_of_toOption hx)))
    | size =>
      obtain ⟨⟨x, unit⟩, hx, rfl⟩ := Option.map_eq_some_iff.1 h
      exact hfloat (unit.mul_inBytes (Numeral.quantity_ne_nan (ok_of_toOption hx)))
  | string kind raw =>
    cases kind <;>
    · obtain ⟨value, -, rfl⟩ := Option.map_eq_some_iff.1 h
      simp [Value.equivalent, Value.number?, Value.same]
  | keyword k =>
    cases k <;> cases h <;> rfl
  | _ => cases h

end ApiScript
