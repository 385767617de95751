import ApiScript.Proofs.Lexing.Elements
import ApiScript.Proofs.Pairing.Fragment
import Mathlib.Data.List.Forall2

set_option autoImplicit false
set_option relaxedAutoImplicit false

/-!
The decoders of tokens at two places: they answer with the same value, code aside, which is found at
places that belong together, or with the same fault.
-/

namespace ApiScript.Grammar

open Placed Quoted

variable {R : Regime} {α β : Type}

/-- Two lexical errors belong together, and the first one starts in front of the bound. -/
structure Regime.Faults (R : Regime) (e e' : LexicalError) : Prop where
  fault : e.fault = e'.fault
  same : R.Same e.span e'.span
  bound : e.span.start ≤ R.fence.bound

inductive Regime.Answers (R : Regime) (same : α → β → Prop) :
    Except LexicalError α → Except LexicalError β → Prop
  | ok {a : α} {b : β} (h : same a b) : R.Answers same (.ok a) (.ok b)
  | error {e e' : LexicalError} (h : R.Faults e e') : R.Answers same (.error e) (.error e')

private theorem Regime.Answers.map {γ δ : Type} {same : α → β → Prop} {same' : γ → δ → Prop}
    {f : α → γ} {g : β → δ} {r : Except LexicalError α} {r' : Except LexicalError β}
    (h : R.Answers same r r') (hfg : ∀ a b, same a b → same' (f a) (g b)) :
    R.Answers same' (r.map f) (r'.map g) := by
  cases h with
  | ok h => exact .ok (hfg _ _ h)
  | error h => exact .error h

section Numerals

variable {s s' : Span} (raw : String)

theorem answers_integer (h : R.Same s s') (hb : s.start ≤ R.fence.bound) :
    R.Answers Eq (Numeral.integer raw s) (Numeral.integer raw s') := by
  unfold Numeral.integer
  split
  · exact .ok rfl
  · exact .error ⟨rfl, h, hb⟩

theorem answers_float (h : R.Same s s') (hb : s.start ≤ R.fence.bound) :
    R.Answers Eq (Numeral.float raw s) (Numeral.float raw s') := by
  unfold Numeral.float
  split
  · exact .ok rfl
  · exact .error ⟨rfl, h, hb⟩

theorem answers_quantity {Unit : Type} (kind : NumberClass) (ofSuffix? : String → Option Unit)
    (noSuffix : NumberFault) (h : R.Same s s') (hb : s.start ≤ R.fence.bound) :
    R.Answers Eq (Numeral.quantity kind ofSuffix? noSuffix raw s)
      (Numeral.quantity kind ofSuffix? noSuffix raw s') := by
  unfold Numeral.quantity
  split
  · exact .error ⟨rfl, h, hb⟩
  · split
    · exact .error ⟨rfl, h, hb⟩
    · exact .ok rfl

end Numerals

private inductive Regime.Elements (R : Regime) : Element → Element → Prop
  | char (c : Char) : R.Elements (.char c) (.char c)
  | byte (b : UInt8) : R.Elements (.byte b) (.byte b)
  | code {source : String} {offset offset' : Nat} (h : R.Codes source offset offset') :
    R.Elements (.code source offset) (.code source offset')

inductive Regime.Segments (R : Regime) : Segment → Segment → Prop
  | text (text : String) : R.Segments (.text text) (.text text)
  | code {source : String} {offset offset' : Nat} (h : R.Codes source offset offset') :
    R.Segments (.code source offset) (.code source offset')

private inductive Regime.Unclosed (R : Regime) : Option LexicalError → Option LexicalError → Prop
  | none : R.Unclosed none none
  | some {e e' : LexicalError} (h : R.Faults e e') : R.Unclosed (some e) (some e')

section Elements

variable {unclosed unclosed' : Option LexicalError} {bound offset : Nat} {c : Char} {cs : List Char}

private theorem answers_elementsWithin {a a' : Span} (ha : R.Same a a')
    (hunclosed : R.Unclosed unclosed unclosed') (bound m : Nat) (cs : List Char)
    (hb : a.start + m + Text.byteSize cs ≤ R.fence.bound) :
    R.Answers (List.Forall₂ R.Elements) (elementsWithin unclosed bound (a.start + m) cs)
      (elementsWithin unclosed' bound (a'.start + m) cs) := by
  induction bound generalizing m cs with
  | zero => exact .ok .nil
  | succ bound ih =>
    cases cs with
    | nil => exact .ok .nil
    | cons c cs =>
      rw [Text.byteSize_cons] at hb
      have hrest (cs : List Char) (n : Nat) :
          Text.byteSize (cs.take n) + Text.byteSize (cs.drop n) = Text.byteSize cs := by
        rw [← Text.byteSize_append, List.take_append_drop]
      by_cases hslash : c = '\\'
      · subst hslash
        have hsize : ('\\' : Char).utf8Size = 1 := by decide
        rw [elementsWithin_escape, elementsWithin_escape]
        cases escape cs with
        | error r =>
          refine .error ⟨rfl, ?_, by dsimp only; omega⟩
          have hwithin := R.within ha m (m + 1 + Text.byteSize (cs.take r.2))
          simpa only [Regime.Same, respan, Nat.add_assoc] using hwithin
        | ok r =>
          have hsplit := hrest cs r.2
          have hbehind := ih (m + 1 + Text.byteSize (cs.take r.2)) (cs.drop r.2) (by omega)
          simp only [← Nat.add_assoc] at hbehind
          refine hbehind.map fun es es' h => .cons ?_ h
          cases r.1
          · exact .char _
          · exact .byte _
      · by_cases hcode : unclosed ≠ none ∧ c = '$' ∧ cs.head? = some '{'
        · obtain ⟨hsome, rfl, hbrace⟩ := hcode
          obtain ⟨cs, rfl⟩ := List.head?_eq_some_iff.1 hbrace
          cases hunclosed with
          | none => exact absurd rfl hsome
          | some he =>
            rw [elementsWithin_code, elementsWithin_code]
            cases hn : Enclosure.closing? [.code 0] cs with
            | none => exact .error he
            | some n =>
              have hdollar : ('$' : Char).utf8Size = 1 := by decide
              have hopener : ('{' : Char).utf8Size = 1 := by decide
              rw [Text.byteSize_cons] at hb
              have hsplit := hrest cs n
              have hinside := hrest cs (n - 1)
              have hbehind := ih (m + 2 + Text.byteSize (cs.take n)) (cs.drop n) (by omega)
              simp only [← Nat.add_assoc] at hbehind
              refine hbehind.map fun es es' h => .cons (.code (.mk m ha ?_)) h
              rw [String.toList_ofList]
              omega
        · have hchar (hsome : unclosed ≠ none) (hc : c = '$') : cs.head? ≠ some '{' := fun hbrace =>
            hcode ⟨hsome, hc, hbrace⟩
          rw [elementsWithin_char hslash hchar, elementsWithin_char hslash fun hsome => hchar ?_]
          · have hbehind := ih (m + c.utf8Size) cs (by omega)
            simp only [← Nat.add_assoc] at hbehind
            exact hbehind.map fun es es' h => .cons (.char c) h
          · cases hunclosed with
            | none => exact hsome
            | some _ => exact nofun

end Elements

private theorem pending_self (read : List Char) : List.Forall₂ R.Segments (pendingChars read)
    (pendingChars read) := by
  unfold pendingChars
  split
  · exact .nil
  · exact .cons (.text _) .nil

private theorem segments_alike {es es' : List Element} (h : List.Forall₂ R.Elements es es')
    (read : List Char) :
    List.Forall₂ R.Segments (segments read es) (segments read es') := by
  induction h generalizing read with
  | nil => exact pending_self read
  | cons h _ ih =>
    cases h with
    | char c => exact ih _
    | byte b => exact ih _
    | code h => exact List.rel_append (pending_self read) (.cons (.code h) (ih _))

section Strings

variable {s s' : Span} {raw : String}

theorem answers_split (h : R.Same s s') (hb : s.start + Text.byteSize raw.toList ≤ R.fence.bound) :
    R.Answers (List.Forall₂ R.Segments) (split raw s) (split raw s') := by
  unfold split
  have hfaults : R.Faults (unterminated '"' s) (unterminated '"' s') :=
    ⟨rfl, h, by dsimp only [unterminated]; omega⟩
  split
  · exact .error hfaults
  · rename_i body hbody
    rw [unquote?_eq_some hbody, List.cons_append, Text.byteSize_cons, Text.byteSize_append] at hb
    have hquote : ('"' : Char).utf8Size = 1 := by decide
    rw [splitFrom_nil, splitFrom_nil]
    exact (answers_elementsWithin h (.some hfaults) _ 1 body (by omega)).map fun es es' h =>
      segments_alike h []

private theorem elements_eq {es es' : List Element} {f : Element → β}
    (h : List.Forall₂ R.Elements es es')
    (hcode : ∀ source offset offset', f (.code source offset) = f (.code source offset')) :
    es.map f = es'.map f := by
  induction h with
  | nil => rfl
  | cons h _ ih =>
    rw [List.map_cons, List.map_cons, ih]
    cases h with
    | char | byte => rfl
    | code => rw [hcode]

theorem answers_decodeSimple (h : R.Same s s')
    (hb : s.start + Text.byteSize raw.toList ≤ R.fence.bound) :
    R.Answers Eq (decodeSimple raw s) (decodeSimple raw s') := by
  unfold decodeSimple
  split
  · exact .error ⟨rfl, h, by dsimp only [unterminated]; omega⟩
  · rename_i body hbody
    rw [unquote?_eq_some hbody, List.cons_append, Text.byteSize_cons, Text.byteSize_append] at hb
    have hquote : ('\'' : Char).utf8Size = 1 := by decide
    rw [unescape_eq, unescape_eq]
    unfold elements
    rw [String.toList_ofList]
    refine (answers_elementsWithin h .none _ 1 body (by omega)).map fun es es' h => ?_
    have hchars : es.map Element.char? = es'.map Element.char? := elements_eq h fun _ _ _ => rfl
    have hfilter (es : List Element) :
        es.filterMap Element.char? = (es.map Element.char?).filterMap id := by
      rw [List.filterMap_map, Function.id_comp]
    rw [hfilter, hfilter es', hchars]

theorem answers_decodeBytes (h : R.Same s s')
    (hb : s.start + Text.byteSize raw.toList ≤ R.fence.bound) :
    R.Answers Eq (decodeBytes raw s) (decodeBytes raw s') := by
  have hfaults : R.Faults (unterminated '"' s) (unterminated '"' s') :=
    ⟨rfl, h, by dsimp only [unterminated]; omega⟩
  unfold decodeBytes
  split
  · rename_i quoted hraw
    split
    · exact .error hfaults
    · rename_i body hbody
      rw [hraw, unquote?_eq_some hbody, List.cons_append, Text.byteSize_cons, Text.byteSize_cons,
        Text.byteSize_append] at hb
      have hprefixed : ('b' : Char).utf8Size = 1 := by decide
      have hquote : ('"' : Char).utf8Size = 1 := by decide
      rw [bytesFrom_nil, bytesFrom_nil]
      refine (answers_elementsWithin h .none _ 2 body (by omega)).map fun es es' h => ?_
      have hbytes : es.map Element.bytes = es'.map Element.bytes := elements_eq h fun _ _ _ => rfl
      exact congrArg List.flatten hbytes
  · exact .error hfaults

end Strings

end ApiScript.Grammar
