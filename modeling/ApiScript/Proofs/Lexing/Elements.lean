import ApiScript.Proofs.Lexing.Embedded
import ApiScript.Proofs.Lexing.Enclosed

set_option autoImplicit false
set_option relaxedAutoImplicit false

/-!
A quoted body, element by element: what each element covers, and what the scan for the closer makes
of it.
-/

namespace ApiScript

namespace StringClass

def quote : StringClass → Char
  | interpolated | bytes => '"'
  | simple => '\''

def opener : StringClass → List Char
  | interpolated => ['"']
  | simple => ['\'']
  | bytes => ['b', '"']

def enclosure : StringClass → Enclosure
  | interpolated => .text
  | simple => .quoted '\''
  | bytes => .quoted '"'

open Enclosure

variable {kind : StringClass} {c : Char} {cs : List Char}

theorem closing?_pass (hslash : c ≠ '\\') (hquote : c ≠ kind.quote)
    (hcode : kind = .interpolated → c = '$' → cs.head? ≠ some '{') :
    closing? [kind.enclosure] (c :: cs) = (closing? [kind.enclosure] cs).map (· + 1) := by
  cases kind with
  | interpolated => exact closing?_text_pass hslash hquote (hcode rfl)
  | simple =>
    have hquote : c ≠ '\'' := hquote
    rw [enclosure, closing?_quoted_pass hslash, if_neg hquote]
  | bytes =>
    have hquote : c ≠ '"' := hquote
    rw [enclosure, closing?_quoted_pass hslash, if_neg hquote]

theorem closing?_escape (d : Char) :
    closing? [kind.enclosure] ('\\' :: d :: cs) = (closing? [kind.enclosure] cs).map (· + 2) := by
  cases kind <;> rw [enclosure, closing?]

theorem closing?_digits {tail : List Char}
    (h : ∀ d ∈ tail, Lexeme.isHexDigit d = true ∨ d = '{' ∨ d = '}') :
    closing? [kind.enclosure] (tail ++ cs) = (closing? [kind.enclosure] cs).map
      (· + tail.length) := by
  induction tail with
  | nil => simp
  | cons d tail ih =>
    obtain ⟨hd, htail⟩ := List.forall_mem_cons.1 h
    have hplain : d ≠ '\\' ∧ d ≠ kind.quote ∧ d ≠ '$' := by
      refine ⟨?_, ?_, ?_⟩ <;>
      · rintro rfl
        revert hd
        cases kind <;> decide
    rw [List.cons_append, closing?_pass hplain.1 hplain.2.1 fun _ hc =>
      absurd hc hplain.2.2, ih htail, map_add_map_add, List.length_cons]

end StringClass

namespace Quoted

theorem unquote?_concat (quote : Char) (body : List Char) :
    unquote? quote (quote :: (body ++ [quote])) = some body := by
  rw [unquote?, List.getLast?_concat, if_pos ⟨rfl, rfl⟩, List.dropLast_concat]

section Escapes

theorem hexChar_extent {digits : List Char} {extent n : Nat} {escaped : Escaped}
    (h : hexChar digits extent = .ok (escaped, n)) : n = extent := by
  unfold hexChar at h
  split at h <;> cases h
  rfl

theorem hexDigits_of_runLength {cs : List Char} {k : Nat}
    (h : ¬Lexeme.runLength Lexeme.isHexDigit (cs.take k) < k) :
    (cs.take k).length = k ∧ ∀ d ∈ cs.take k, Lexeme.isHexDigit d = true := by
  have hprefix := List.takeWhile_prefix (l := cs.take k) Lexeme.isHexDigit
  have hle := hprefix.length_le
  have htake := List.length_take_le k cs
  unfold Lexeme.runLength at h
  refine ⟨by omega, ?_⟩
  rw [← hprefix.eq_of_length (by omega)]
  exact List.all_eq_true.1 List.all_takeWhile

theorem escape_covers {cs : List Char} {escaped : Escaped} {n : Nat}
    (h : escape cs = .ok (escaped, n)) :
    ∃ c tail rest, cs = c :: (tail ++ rest) ∧ n = tail.length + 1 ∧
      ∀ d ∈ tail, Lexeme.isHexDigit d = true ∨ d = '{' ∨ d = '}' := by
  unfold escape at h
  split at h
  · cases h
  · rename_i cs
    dsimp only at h
    split at h
    · cases h
    · rename_i hdigits
      obtain ⟨hlength, hhex⟩ := hexDigits_of_runLength hdigits
      cases h
      exact ⟨'x', cs.take 2, cs.drop 2, by
        rw [List.take_append_drop], by rw [hlength], fun d hd => .inl (hhex d hd)⟩
  · rename_i cs
    dsimp only at h
    split at h
    · cases h
    · rename_i hdigits
      obtain ⟨rest, hrest⟩ :=
        List.head?_eq_some_iff.1 (Classical.byContradiction fun hopen =>
          hdigits (.inr (.inr hopen)))
      have hrun := Lexeme.take_takeWhile_length Lexeme.isHexDigit cs
      have hsplit := List.take_append_drop (cs.takeWhile Lexeme.isHexDigit).length cs
      unfold Lexeme.runLength at h hrest
      rw [hrest, hrun] at hsplit
      refine ⟨'u', '{' :: (cs.takeWhile Lexeme.isHexDigit ++ ['}']), rest, ?_, ?_, ?_⟩
      · rw [List.cons_append, List.append_assoc, List.singleton_append, hsplit]
      · rw [hexChar_extent h, List.length_cons, List.length_append, List.length_singleton]
      · intro d hd
        simp only [List.mem_cons, List.mem_append, List.not_mem_nil, or_false] at hd
        rcases hd with rfl | hd | rfl
        · exact .inr (.inl rfl)
        · exact .inl (List.all_eq_true.1 List.all_takeWhile d hd)
        · exact .inr (.inr rfl)
  · rename_i cs _
    dsimp only at h
    split at h
    · cases h
    · rename_i hdigits
      obtain ⟨hlength, hhex⟩ := hexDigits_of_runLength hdigits
      refine ⟨'u', cs.take 4, cs.drop 4, by
        rw [List.take_append_drop], ?_, fun d hd => .inl (hhex d hd)⟩
      rw [hlength, hexChar_extent h]
  · rename_i c cs _ _ _
    split at h
    · cases h
      exact ⟨c, [], cs, rfl, rfl, nofun⟩
    · cases h

end Escapes

section Closed

open Enclosure

/-- A body whose closing quote the scan finds at its end is at fault in an escape sequence only: its
code ends, and what is behind an element is such a body again. -/
theorem elementsWithin_error_of_closed {e d : LexicalError} {bound offset : Nat} {body : List Char}
    (hclosed : closing? [.text] (body ++ ['"']) = some (body.length + 1))
    (h : elementsWithin (some e) bound offset body = .error d) :
    ∃ sequence rule, d.fault = .invalidEscape sequence rule := by
  induction bound generalizing offset body with
  | zero => cases h
  | succ bound ih =>
    cases body with
    | nil => cases h
    | cons c cs =>
      rw [List.cons_append, List.length_cons] at hclosed
      by_cases hslash : c = '\\'
      · subst hslash
        rw [elementsWithin_escape] at h
        split at h
        · cases h
          exact ⟨_, _, rfl⟩
        · rename_i escaped n hescape
          obtain ⟨letter, tail, rest, rfl, rfl, htail⟩ := escape_covers hescape
          change closing? [StringClass.interpolated.enclosure] _ = _ at hclosed
          rw [List.cons_append, List.append_assoc, StringClass.closing?_escape,
            StringClass.closing?_digits htail, map_add_map_add, Option.map_eq_some_iff] at hclosed
          simp only [List.length_cons, List.length_append] at hclosed
          obtain ⟨m, hm, hlength⟩ := hclosed
          obtain rfl : m = rest.length + 1 := by omega
          have hdrop : (letter :: (tail ++ rest)).drop (tail.length + 1) = rest := List.drop_left
          rw [hdrop] at h
          exact ih hm (error_of_map h)
      · by_cases hcode : c = '$' ∧ cs.head? = some '{'
        · obtain ⟨rfl, hhead⟩ := hcode
          obtain ⟨cs, rfl⟩ := List.head?_eq_some_iff.1 hhead
          simp only [List.cons_append, closing?, Option.map_eq_some_iff,
            List.length_cons] at hclosed
          obtain ⟨m, hm, hlength⟩ := hclosed
          obtain ⟨n, k, rfl, hn, hk⟩ := @exists_closing?_of_append [.code 0] [.text] _ _ hm
          -- The code ends in front of the quote, so it ends in the body as it does in all of the
          -- string.
          have hpos := closing?_pos hk
          have hle : n ≤ cs.length := by omega
          rw [List.drop_append_of_le_length hle] at hk
          rw [List.take_append_of_le_length hle] at hn
          have hfound := closing?_append_of_some hn (cs.drop n)
          rw [List.take_append_drop] at hfound
          simp only [elementsWithin_code, hfound] at h
          refine ih ?_ (error_of_map h)
          rw [hk, List.length_drop]
          congr 1
          omega
        · have hopen (hc : c = '$') : cs.head? ≠ some '{' := fun hhead => hcode ⟨hc, hhead⟩
          rw [elementsWithin_char hslash fun _ => hopen] at h
          have hquote : c ≠ '"' := by
            rintro rfl
            simp [closing?] at hclosed
          have hopen' (hc : c = '$') : (cs ++ ['"']).head? ≠ some '{' := by
            cases cs with
            | nil => decide
            | cons d cs => exact hopen hc
          rw [closing?_text_pass hslash hquote hopen'] at hclosed
          obtain ⟨m, hm, hlength⟩ := Option.map_eq_some_iff.1 hclosed
          obtain rfl := Nat.succ.inj hlength
          exact ih hm (error_of_map h)

end Closed

end Quoted

end ApiScript
