import ApiScript.Proofs.Lexing.Body
import ApiScript.Proofs.Lexing.Embedded
import ApiScript.Proofs.Numeral.Decoding

set_option autoImplicit false
set_option relaxedAutoImplicit false

/-!
The three decoders of quoted bodies. A body without code is a row of pieces, each a character or an
escape sequence that stands for one element; the decoders differ in what they make of an element,
not in where they find one.
-/

namespace ApiScript.Quoted

inductive Stands : List Char → Element → Prop
  | plain {c : Char} (hslash : c ≠ '\\') : Stands [c] (.char c)
  | letter {l c : Char} (hletter : letter? l = some c) : Stands ['\\', l] (.char c)
  | byte {digits : List Char} {n : Nat} (hlength : digits.length = 2)
    (hvalue : Numeral.Digits 16 digits n) :
    Stands ('\\' :: 'x' :: digits) (.byte (UInt8.ofNat n))
  | unbraced {digits : List Char} {c : Char} (hlength : digits.length = 4)
    (hvalue : Numeral.Digits 16 digits c.toNat) :
    Stands ('\\' :: 'u' :: digits) (.char c)
  | braced {digits : List Char} {c : Char} (hlength : digits.length ≤ 6)
    (hvalue : Numeral.Digits 16 digits c.toNat) :
    Stands ('\\' :: 'u' :: '{' :: (digits ++ ['}'])) (.char c)

private theorem Stands.char? {written : List Char} {e : Element} (h : Stands written e) :
    ∃ c, e.char? = some c := by
  cases h <;> exact ⟨_, rfl⟩

section Pieces

private theorem hexChar_ok {digits : List Char} {extent n : Nat} {escaped : Escaped}
    (h : hexChar digits extent = .ok (escaped, n)) :
    ∃ c : Char, escaped = .char c ∧ n = extent ∧ Numeral.Digits 16 digits c.toNat := by
  unfold hexChar at h
  split at h
  · rename_i c hc
    cases h
    obtain ⟨value, hvalue, hscalar⟩ := Option.bind_eq_some_iff.1 hc
    obtain ⟨hvalid, hchar⟩ := Option.ite_none_right_eq_some.1 hscalar
    obtain rfl := Option.some.inj hchar
    have htoNat : (Char.ofNat value).toNat = value := by
      rw [Char.ofNat, dif_pos hvalid]
      rfl
    exact ⟨_, rfl, rfl, htoNat.symm ▸ Numeral.digits?_eq_some.1 hvalue⟩
  · cases h

private theorem escape_stands {cs : List Char} {escaped : Escaped} {n : Nat}
    (h : escape cs = .ok (escaped, n)) :
    Stands ('\\' :: cs.take n) (.ofEscaped escaped) := by
  unfold escape at h
  split at h
  · cases h
  · rename_i cs
    dsimp only at h
    split at h
    · cases h
    · rename_i hdigits
      obtain ⟨hlength, hhex⟩ := hexDigits_of_runLength hdigits
      have hne : cs.take 2 ≠ [] := List.ne_nil_of_length_pos (by omega)
      obtain ⟨value, hvalue⟩ :=
        Numeral.exists_digits_of_run (fun _ => Numeral.exists_isDigit_hex)
          ⟨hne, List.all_eq_true.2 hhex⟩
      cases h
      rw [Numeral.digits?_eq_some.2 hvalue]
      exact .byte hlength hvalue
  · rename_i cs
    dsimp only at h
    split at h
    · cases h
    · rename_i hdigits
      obtain ⟨rest, hrest⟩ :=
        List.head?_eq_some_iff.1 (Classical.byContradiction fun hopen =>
          hdigits (.inr (.inr hopen)))
      obtain ⟨c, rfl, rfl, hvalue⟩ := hexChar_ok h
      have hbrace : cs.take (Lexeme.runLength Lexeme.isHexDigit cs + 1) =
          cs.take (Lexeme.runLength Lexeme.isHexDigit cs) ++ ['}'] := by
        rw [List.take_add, hrest]
        rfl
      rw [List.take_succ_cons, List.take_succ_cons, hbrace]
      exact .braced ((List.length_take_le _ _).trans (by omega)) hvalue
  · rename_i cs _
    dsimp only at h
    split at h
    · cases h
    · rename_i hdigits
      obtain ⟨c, rfl, rfl, hvalue⟩ := hexChar_ok h
      exact .unbraced (hexDigits_of_runLength hdigits).1 hvalue
  · split at h
    · rename_i hletter
      cases h
      exact .letter hletter
    · cases h

private theorem elementsWithin_pieces {bound offset : Nat} {body : List Char} {es : List Element}
    (hbound : body.length ≤ bound) (h : elementsWithin none bound offset body = .ok es) :
    ∃ parts : List (List Char × Element), (∀ p ∈ parts, Stands p.1 p.2) ∧
    body = parts.flatMap Prod.fst ∧ es = parts.map Prod.snd := by
  induction bound generalizing offset body es with
  | zero =>
    obtain rfl := List.eq_nil_of_length_eq_zero (Nat.le_zero.1 hbound)
    cases h
    exact ⟨[], nofun, rfl, rfl⟩
  | succ bound ih =>
    cases body with
    | nil =>
      cases h
      exact ⟨[], nofun, rfl, rfl⟩
    | cons c cs =>
      have hcs : cs.length ≤ bound := Nat.le_of_succ_le_succ hbound
      by_cases hslash : c = '\\'
      · subst hslash
        rw [elementsWithin_escape] at h
        split at h
        · cases h
        · rename_i escaped n hescape
          obtain ⟨es, hes, rfl⟩ := ok_of_map h
          obtain ⟨parts, hstands, hbody, rfl⟩ :=
            ih ((List.length_drop ▸ Nat.sub_le ..).trans hcs) hes
          refine ⟨('\\' :: cs.take n, .ofEscaped escaped) :: parts,
            List.forall_mem_cons.2 ⟨escape_stands hescape, hstands⟩, ?_, rfl⟩
          rw [List.flatMap_cons, ← hbody, List.cons_append, List.take_append_drop]
      · rw [elementsWithin_char hslash fun hcoded => absurd rfl hcoded] at h
        obtain ⟨es, hes, rfl⟩ := ok_of_map h
        obtain ⟨parts, hstands, hbody, rfl⟩ := ih hcs hes
        exact ⟨([c], .char c) :: parts, List.forall_mem_cons.2 ⟨.plain hslash, hstands⟩,
          congrArg (c :: ·) hbody, rfl⟩

private theorem elementsWithin_of_codeless {body : List Char} (h : ¬['$', '{'] <:+: body)
    (unclosed : Option LexicalError) (bound offset : Nat) :
    elementsWithin unclosed bound offset body = elementsWithin none bound offset body := by
  induction bound generalizing body offset with
  | zero => rfl
  | succ bound ih =>
    cases body with
    | nil => rfl
    | cons c cs =>
      have hbehind {rest : List Char} (hrest : rest <:+ cs) : ¬['$', '{'] <:+: rest := fun hcode =>
        h (hcode.trans (hrest.isInfix.trans (List.suffix_cons c cs).isInfix))
      by_cases hslash : c = '\\'
      · subst hslash
        rw [elementsWithin_escape, elementsWithin_escape]
        split
        · rfl
        · rw [ih (hbehind (List.drop_suffix _ _))]
      · have hopen (hc : c = '$') (hhead : cs.head? = some '{') : False := by
          obtain ⟨rest, rfl⟩ := List.head?_eq_some_iff.1 hhead
          exact h ⟨[], rest, congrArg (· :: '{' :: rest) hc.symm⟩
        rw [elementsWithin_char hslash fun _ => hopen, elementsWithin_char hslash fun hcoded =>
          absurd rfl hcoded, ih (hbehind (List.suffix_refl cs))]

private theorem segments_pieces {parts : List (List Char × Element)}
    (h : ∀ p ∈ parts, Stands p.1 p.2) :
    segments [] (parts.map Prod.snd) = pendingChars (parts.filterMap (·.2.char?)).reverse := by
  obtain ⟨cs, hcs⟩ : ∃ cs : List Char, parts.map (·.2.char?) = cs.map some := by
    induction parts with
    | nil => exact ⟨[], rfl⟩
    | cons p parts ih =>
      obtain ⟨hp, hparts⟩ := List.forall_mem_cons.1 h
      obtain ⟨c, hc⟩ := hp.char?
      obtain ⟨cs, hcs⟩ := ih hparts
      exact ⟨c :: cs, by rw [List.map_cons, List.map_cons, hc, hcs]⟩
  have hchars : parts.filterMap (·.2.char?) = cs := by
    rw [← Function.id_comp (fun p : List Char × Element => p.2.char?), ← List.filterMap_map, hcs,
      List.filterMap_map, Function.id_comp, List.filterMap_some]
  have helements : (parts.map Prod.snd).map Element.char? = cs.map some := by rwa [List.map_map]
  rw [segments_chars helements, hchars, List.append_nil]

end Pieces

/-- The three decoders agree on every body. Without code, a string in double quotes is the text of
the body, or nothing if that is empty, or has the error of the body. A byte string has the error of
the body too. If there is none, the body is a row of pieces: their characters are the text, and
their bytes are the byte string, where a character counts with all bytes that encode it and a
sequence of two digits with its one byte. -/
theorem decoders_agree (t : String) (span : Span) :
    (¬['$', '{'] <:+: t.toList → split ("\"" ++ t ++ "\"") span =
      (unescape t (span.start + 1)).map fun u => if u = "" then [] else [.text u]) ∧
    (∀ e, decodeBytes ("b\"" ++ t ++ "\"") span = .error e ↔
      unescape t (span.start + 2) = .error e) ∧
    ∀ u, unescape t (span.start + 2) = .ok u → ∃ parts : List (List Char × Element),
      (∀ p ∈ parts, Stands p.1 p.2) ∧ t.toList = parts.flatMap Prod.fst ∧
      u = String.ofList (parts.filterMap (·.2.char?)) ∧
      decodeBytes ("b\"" ++ t ++ "\"") span = .ok (parts.flatMap (·.2.bytes)) := by
  have hstring : ("\"" ++ t ++ "\"").toList = '"' :: (t.toList ++ ['"']) := by
    simp [String.toList_append]
  have hbytes : ("b\"" ++ t ++ "\"").toList = 'b' :: '"' :: (t.toList ++ ['"']) := by
    simp [String.toList_append]
  have hdecode : decodeBytes ("b\"" ++ t ++ "\"") span =
      (elements none (span.start + 2) t.toList).map (·.flatMap Element.bytes) := by
    rw [decodeBytes, hbytes]
    simp only [unquote?_concat, bytesFrom_nil]
  refine ⟨fun ht => ?_, fun e => ?_, fun u hu => ?_⟩
  · rw [split, hstring, unescape_eq, unquote?_concat]
    simp only [splitFrom_nil, elements, elementsWithin_of_codeless ht]
    cases hes : elementsWithin none t.toList.length (span.start + 1) t.toList with
    | error e => rfl
    | ok es =>
      obtain ⟨parts, hstands, -, rfl⟩ := elementsWithin_pieces (Nat.le_refl _) hes
      simp only [Except.map, segments_pieces hstands, pendingChars, List.isEmpty_reverse,
        List.reverse_reverse, List.filterMap_map, List.isEmpty_iff, Function.comp_def,
        String.ofList_eq_empty_iff]
  · rw [hdecode, unescape_eq]
    cases elements none (span.start + 2) t.toList <;> simp [Except.map]
  · rw [unescape_eq] at hu
    obtain ⟨es, hes, rfl⟩ := ok_of_map hu
    obtain ⟨parts, hstands, ht, rfl⟩ := elementsWithin_pieces (Nat.le_refl _) hes
    refine ⟨parts, hstands, ht, by rw [List.filterMap_map]; rfl, ?_⟩
    rw [hdecode, hes, Except.map, List.flatMap_map]

/-- A body with sequences of each kind, a character of two bytes and a dollar sign in front of no
brace. -/
theorem decoders_agree_of_mixed : let t := "\\xe9é\\u\x7be9\x7d\\u0042\\n$"
    ¬['$', '{'] <:+: t.toList ∧ split ("\"" ++ t ++ "\"") ⟨5, 40⟩ = .ok [.text "éééB\n$"] ∧
      unescape t 7 = .ok "éééB\n$" ∧ ∃ parts : List (List Char × Element),
      (∀ p ∈ parts, Stands p.1 p.2) ∧
        t.toList = parts.flatMap Prod.fst ∧
        parts.flatMap (·.2.bytes) = [0xe9, 0xc3, 0xa9, 0xc3, 0xa9, 0x42, 0x0a, 0x24] := by
  intro t
  have ht : ¬['$', '{'] <:+: t.toList := by decide +kernel
  have htext : unescape t 7 = .ok "éééB\n$" := by decide +kernel
  obtain ⟨hsplit, -, hparts⟩ := decoders_agree t ⟨5, 40⟩
  obtain ⟨parts, hstands, hwritten, -, hbytes⟩ := hparts _ htext
  refine ⟨ht, ?_, htext, parts, hstands, hwritten, Except.ok.inj (hbytes.symm.trans ?_)⟩
  · rw [hsplit ht]
    decide +kernel
  · decide +kernel

end ApiScript.Quoted
