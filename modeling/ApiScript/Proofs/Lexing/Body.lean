import ApiScript.Proofs.Lexing.WellSpelled
import ApiScript.Quoted.Encode

set_option autoImplicit false
set_option relaxedAutoImplicit false

/-!
Bodies of strings that embed no code. Texts and bytes are written as such bodies, and the decoders
take them back.
-/

namespace ApiScript.Quoted

/-- A body between quotes of the class that embeds no code, and its elements. -/
inductive Body (kind : StringClass) : List Char → List Element → Prop
  | nil : Body kind [] []
  | sequence {letter : Char} {tail rest : List Char} {escaped : Escaped} {es : List Element}
    (h : escape (letter :: (tail ++ rest)) = .ok (escaped, tail.length + 1))
    (hrest : Body kind rest es) :
    Body kind ('\\' :: letter :: (tail ++ rest)) (.ofEscaped escaped :: es)
  | char {c : Char} {rest : List Char} {es : List Element} (hslash : c ≠ '\\')
    (hquote : c ≠ kind.quote)
    (hcode : kind = .interpolated → c = '$' → rest.head? ≠ some '{') (hrest : Body kind rest es) :
    Body kind (c :: rest) (.char c :: es)

theorem escape_digits {letter : Char} {tail rest : List Char} {escaped : Escaped}
    (h : escape (letter :: (tail ++ rest)) = .ok (escaped, tail.length + 1)) :
    ∀ d ∈ tail, Lexeme.isHexDigit d = true ∨ d = '{' ∨ d = '}' := by
  obtain ⟨letter', tail', rest', hcs, hlength, hdigits⟩ := escape_covers h
  rwa [(List.append_inj (List.cons.inj hcs).2 (Nat.succ.inj hlength)).1]

namespace Body

variable {kind : StringClass} {body : List Char} {es : List Element}

private theorem closed (h : Body kind body es) :
    Enclosure.closing? [kind.enclosure] (body ++ [kind.quote]) =
      some (body ++ [kind.quote]).length := by
  induction h with
  | nil => cases kind <;> decide
  | @sequence letter tail rest escaped es h hrest ih =>
    rw [List.cons_append, List.cons_append, List.append_assoc, StringClass.closing?_escape,
      StringClass.closing?_digits (escape_digits h), ih]
    simp only [Option.map_some, List.length_cons, List.length_append, List.length_nil]
    congr 1
    omega
  | @char c rest es hslash hquote hcode hrest ih =>
    have hopen (hkind : kind = .interpolated) (hc : c = '$') :
        (rest ++ [kind.quote]).head? ≠ some '{' := by
      cases rest with
      | nil =>
        rw [hkind]
        decide
      | cons d rest => exact hcode hkind hc
    rw [List.cons_append, StringClass.closing?_pass hslash hquote hopen, ih, Option.map_some,
      List.length_cons]

private theorem elementsWithin_eq (h : Body kind body es) {unclosed : Option LexicalError}
    (hunclosed : unclosed ≠ none → kind = .interpolated) {bound : Nat}
    (hbound : body.length ≤ bound) (offset : Nat) :
    elementsWithin unclosed bound offset body = .ok es := by
  induction h generalizing bound offset with
  | nil => exact elementsWithin_nil ..
  | @sequence letter tail rest escaped es h hrest ih =>
    obtain ⟨bound, rfl⟩ := Nat.exists_eq_add_one_of_ne_zero (Nat.ne_zero_of_lt hbound)
    have hdrop : (letter :: (tail ++ rest)).drop (tail.length + 1) = rest := List.drop_left
    simp only [List.length_cons, List.length_append] at hbound
    simp only [elementsWithin_escape, h, hdrop]
    rw [ih (by omega)]
    rfl
  | char hslash hquote hcode hrest ih =>
    obtain ⟨bound, rfl⟩ := Nat.exists_eq_add_one_of_ne_zero (Nat.ne_zero_of_lt hbound)
    rw [elementsWithin_char hslash fun hcoded => hcode (hunclosed hcoded),
      ih (Nat.le_of_succ_le_succ hbound)]
    rfl

private theorem wellSpelled (h : Body kind body es) :
    (Lexeme.string kind (String.ofList (kind.opener ++ (body ++ [kind.quote])))).WellSpelled :=
  ⟨body ++ [kind.quote], String.toList_ofList, h.closed⟩

end Body

section Hex

private theorem hex_control : ∀ n < 0xa0, (hex n).all Lexeme.isHexDigit = true ∧
    0 < (hex n).length ∧ (hex n).length ≤ 6 ∧
    Numeral.digits? 16 (hex n) = some n := by
  decide +kernel

private theorem forall_byte {p : UInt8 → Prop} (h : ∀ n < 0x100, p (UInt8.ofNat n))
    (b : UInt8) : p b :=
  UInt8.ofNat_toNat (x := b) ▸ h b.toNat b.toNat_lt

private theorem hex_byte : ∀ b : UInt8, let digits :=
  (if b < 0x10 then ['0'] else []) ++ hex b.toNat
    digits.length = 2 ∧ digits.all Lexeme.isHexDigit = true ∧
      Numeral.digits? 16 digits = some b.toNat :=
  forall_byte (by decide +kernel)

private theorem glyph_byte : ∀ b : UInt8, (0x20 ≤ b ∧ b ≤ 0x7e) ∧ b ≠ 0x5c ∧ b ≠ 0x22 →
    Char.ofNat b.toNat ≠ '\\' ∧ Char.ofNat b.toNat ≠ '"' ∧
    String.utf8EncodeChar (Char.ofNat b.toNat) = [b] :=
  forall_byte (by decide +kernel)

private theorem escape_braced {digits rest : List Char} (hhex : digits.all Lexeme.isHexDigit = true)
    (hpos : 0 < digits.length) (hle : digits.length ≤ 6) {c : Char}
    (hvalue : Numeral.digits? 16 digits = some c.toNat) :
    escape ('u' :: ('{' :: (digits ++ ['}']) ++ rest)) =
      .ok (.char c, ('{' :: (digits ++ ['}'])).length + 1) := by
  have hrun : Lexeme.runLength Lexeme.isHexDigit (digits ++ '}' :: rest) = digits.length := by
    rw [Lexeme.runLength, Lexeme.takeWhile_append_of_all hhex]
    rintro d ⟨⟩
    decide
  have hscalar : scalar? c.toNat = some c := by
    rw [scalar?, if_pos (show c.toNat.isValidChar from c.valid), Char.ofNat_toNat]
  have htext : '{' :: (digits ++ ['}']) ++ rest = '{' :: (digits ++ '}' :: rest) := by simp
  have hlength : ('{' :: (digits ++ ['}'])).length + 1 = digits.length + 3 := by simp
  rw [htext, hlength, escape]
  simp only [hrun, List.drop_left, List.take_left, List.head?_cons, hexChar, hvalue,
    Option.bind_some, hscalar]
  rw [if_neg]
  simp only [not_true_eq_false, or_false, not_or]
  omega

private theorem escape_byte {digits rest : List Char} (hlength : digits.length = 2)
    (hhex : digits.all Lexeme.isHexDigit = true) {n : Nat}
    (hvalue : Numeral.digits? 16 digits = some n) :
    escape ('x' :: (digits ++ rest)) = .ok (.byte (UInt8.ofNat n), digits.length + 1) := by
  have htake : (digits ++ rest).take 2 = digits := by rw [← hlength, List.take_left]
  have hrun : Lexeme.runLength Lexeme.isHexDigit digits = 2 := by
    rw [Lexeme.runLength, List.takeWhile_eq_self_iff.2 (List.all_eq_true.1 hhex), hlength]
  simp only [escape, htake, hrun, hvalue, hlength]
  rfl

end Hex

section Encode

private theorem Body.letter {kind : StringClass} {d c : Char} {rest : List Char} {es : List Element}
    (h : escape (d :: rest) = .ok (.char c, 1)) (hrest : Body kind rest es) :
    Body kind (['\\', d] ++ rest) (.char c :: es) :=
  @Body.sequence kind d [] rest (.char c) es h hrest

private theorem encode_head {quote : Quote} {cs : List Char}
    (h : (encode quote cs).head? = some '{') : cs.head? = some '{' := by
  cases cs with
  | nil => cases h
  | cons c cs =>
    unfold encode at h
    dsimp only at h
    split_ifs at h <;> first | exact h | cases h

/-- A text is written as a body that stands for it. -/
theorem encode_body (quote : Quote) (cs : List Char) :
    ∃ es, Body quote.stringClass (encode quote cs) es ∧ es.map Element.char? = cs.map some := by
  induction cs with
  | nil => exact ⟨[], .nil, rfl⟩
  | cons c cs ih =>
    obtain ⟨es, hbody, hes⟩ := ih
    have hcons {e : Element} (he : e.char? = some c) :
        (e :: es).map Element.char? = (c :: cs).map some := by
      rw [List.map_cons, List.map_cons, he, hes]
    unfold encode
    dsimp only
    split_ifs with hslash hnewline hreturn htab hnull hquote hcode hcontrol
    · subst hslash
      exact ⟨_, .letter rfl hbody, hcons rfl⟩
    · subst hnewline
      exact ⟨_, .letter rfl hbody, hcons rfl⟩
    · subst hreturn
      exact ⟨_, .letter rfl hbody, hcons rfl⟩
    · subst htab
      exact ⟨_, .letter rfl hbody, hcons rfl⟩
    · subst hnull
      exact ⟨_, .letter rfl hbody, hcons rfl⟩
    · have hescape : escape (c :: encode quote cs) = .ok (.char c, 1) := by
        rw [hquote]
        cases quote <;> rfl
      exact ⟨_, .letter hescape hbody, hcons rfl⟩
    · obtain ⟨rfl, -, -⟩ := hcode
      exact ⟨_, @Body.sequence _ 'x' ['2', '4'] _ _ _ (escape_byte rfl rfl rfl) hbody, hcons rfl⟩
    · have hlt : c.toNat < 0xa0 := by
        simp only [isControl, Bool.or_eq_true, Bool.and_eq_true, decide_eq_true_eq] at hcontrol
        omega
      obtain ⟨hhex, hpos, hle, hvalue⟩ := hex_control c.toNat hlt
      have hsequence := Body.sequence (escape_braced hhex hpos hle hvalue) hbody
      refine ⟨.char c :: es, ?_, hcons rfl⟩
      simpa only [List.cons_append, List.nil_append, List.append_assoc, Element.ofEscaped]
        using hsequence
    · have hplain : c ≠ quote.stringClass.quote := by cases quote <;> exact hquote
      refine ⟨_, .char hslash hplain ?_ hbody, hcons rfl⟩
      intro hkind hc hhead
      refine hcode ⟨hc, ?_, encode_head hhead⟩
      cases quote
      · rfl
      · cases hkind

private theorem encodeBytes_body (bs : List UInt8) :
    ∃ es, Body .bytes (bs.flatMap encodeByte) es ∧ es.flatMap Element.bytes = bs := by
  induction bs with
  | nil => exact ⟨[], .nil, rfl⟩
  | cons b bs ih =>
    obtain ⟨es, hbody, hes⟩ := ih
    have hcons {e : Element} (he : e.bytes = [b]) : (e :: es).flatMap Element.bytes = b :: bs := by
      rw [List.flatMap_cons, he, hes, List.singleton_append]
    rw [List.flatMap_cons, encodeByte]
    by_cases hslash : b = 0x5c
    · subst hslash
      exact ⟨_, .letter rfl hbody, hcons rfl⟩
    rw [if_neg hslash]
    by_cases hquote : b = 0x22
    · subst hquote
      exact ⟨_, .letter rfl hbody, hcons rfl⟩
    rw [if_neg hquote]
    by_cases hglyph : 0x20 ≤ b ∧ b ≤ 0x7e
    · rw [if_pos hglyph]
      obtain ⟨hslash', hquote', hbytes⟩ := glyph_byte b ⟨hglyph, hslash, hquote⟩
      exact ⟨_, .char hslash' hquote' nofun hbody, hcons hbytes⟩
    · rw [if_neg hglyph]
      obtain ⟨hlength, hhex, hvalue⟩ := hex_byte b
      have hsequence := Body.sequence (escape_byte hlength hhex hvalue) hbody
      refine ⟨.byte (UInt8.ofNat b.toNat) :: es, ?_, hcons (congrArg ([·]) UInt8.ofNat_toNat)⟩
      simpa only [List.cons_append, List.nil_append, List.append_assoc, Element.ofEscaped]
        using hsequence

end Encode

section Written

variable (quote : Quote) (text : String) (bs : List UInt8) (span : Span)

theorem lexeme_wellSpelled : (lexeme quote (encode quote text.toList)).WellSpelled := by
  obtain ⟨es, hbody, -⟩ := encode_body quote text.toList
  rw [lexeme, List.append_assoc]
  cases quote <;> exact hbody.wellSpelled

theorem bytesLexeme_wellSpelled : (bytesLexeme bs).WellSpelled := by
  obtain ⟨es, hbody, -⟩ := encodeBytes_body bs
  rw [bytesLexeme, List.append_assoc]
  exact hbody.wellSpelled

theorem segments_chars {es : List Element} {cs : List Char} (h : es.map Element.char? = cs.map some)
    (read : List Char) :
    segments read es = pendingChars (cs.reverse ++ read) := by
  induction es generalizing cs read with
  | nil =>
    obtain rfl := List.map_eq_nil_iff.1 h.symm
    rfl
  | cons e es ih =>
    obtain ⟨c, cs, rfl⟩ : ∃ c ds, cs = c :: ds := by
      cases cs with
      | nil => cases h
      | cons c cs => exact ⟨c, cs, rfl⟩
    obtain ⟨he, hes⟩ := List.cons.inj h
    rw [List.reverse_cons, List.append_assoc, List.singleton_append]
    cases e with
    | char d =>
      cases he
      exact ih hes _
    | byte b =>
      cases he
      exact ih hes _
    | code => cases he

theorem split_encode : split (String.ofList (['"'] ++ encode .double text.toList ++ ['"'])) span =
    .ok (if text.isEmpty then [] else [.text text]) := by
  obtain ⟨es, hbody, hes⟩ := encode_body .double text.toList
  have hempty : text.toList.reverse.isEmpty = text.isEmpty := by
    rw [Bool.eq_iff_iff]
    simp
  rw [split, String.toList_ofList, List.append_assoc, List.singleton_append, unquote?_concat]
  simp only [splitFrom_nil, elements, hbody.elementsWithin_eq (fun _ => rfl) (Nat.le_refl _)]
  rw [Except.map, segments_chars hes, List.append_nil, pendingChars, hempty, List.reverse_reverse,
    String.ofList_toList]

theorem decodeSimple_encode :
    decodeSimple (String.ofList (['\''] ++ encode .single text.toList ++ ['\''])) span =
      .ok text := by
  obtain ⟨es, hbody, hes⟩ := encode_body .single text.toList
  have hchars : es.filterMap Element.char? = text.toList := by
    rw [← Function.id_comp Element.char?, ← List.filterMap_map, hes, List.filterMap_map,
      Function.id_comp, List.filterMap_some]
  rw [decodeSimple, String.toList_ofList, List.append_assoc, List.singleton_append, unquote?_concat]
  simp only [unescape_eq, elements, String.toList_ofList,
    hbody.elementsWithin_eq (absurd rfl ·) (Nat.le_refl _)]
  rw [Except.map, hchars, String.ofList_toList]

theorem decodeBytes_encode :
    decodeBytes (String.ofList (['b', '"'] ++ bs.flatMap encodeByte ++ ['"'])) span = .ok bs := by
  obtain ⟨es, hbody, hes⟩ := encodeBytes_body bs
  rw [decodeBytes, String.toList_ofList, List.append_assoc, List.cons_append, List.singleton_append]
  simp only [unquote?_concat, bytesFrom_nil, elements,
    hbody.elementsWithin_eq (absurd rfl ·) (Nat.le_refl _)]
  rw [Except.map, hes]

end Written

end ApiScript.Quoted
