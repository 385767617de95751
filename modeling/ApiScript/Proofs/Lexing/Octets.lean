import ApiScript.Proofs.Lexing.Embedded

set_option autoImplicit false
set_option relaxedAutoImplicit false

/-!
Texts as the bytes that encode them. A byte below 128 is a character of its own, and every other
character is encoded with larger bytes only, so that such a byte is seen at a place of a text just
where its character stands.
-/

namespace ApiScript.Text

def octets (cs : List Char) : List UInt8 := cs.flatMap String.utf8EncodeChar

section Octets

variable {c d : Char} {cs front behind : List Char}

@[simp] theorem octets_cons : octets (c :: cs) = String.utf8EncodeChar c ++ octets cs :=
  List.flatMap_cons

@[simp] theorem octets_append : octets (front ++ behind) = octets front ++ octets behind :=
  List.flatMap_append

@[simp] theorem length_octets (cs : List Char) : (octets cs).length = byteSize cs := by
  induction cs with
  | nil => rfl
  | cons c cs ih =>
    rw [octets_cons, List.length_append, String.length_utf8EncodeChar, ih, byteSize_cons]

private theorem val_toNat_le (h : c.utf8Size = 1) : c.val.toNat ≤ 127 :=
  UInt32.le_iff_toNat_le.1 (Char.utf8Size_eq_one_iff.1 h)

private theorem toNat_toUInt8 (h : c.utf8Size = 1) : c.toUInt8.toNat = c.val.toNat := by
  have hle := val_toNat_le h
  rw [Char.toUInt8, UInt32.toNat_toUInt8, Nat.mod_eq_of_lt (by omega)]

private theorem toUInt8_inj (hc : c.utf8Size = 1) (hd : d.utf8Size = 1)
    (h : c.toUInt8 = d.toUInt8) : c = d := by
  have hval := congrArg UInt8.toNat h
  rw [toNat_toUInt8 hc, toNat_toUInt8 hd] at hval
  exact Char.ext (UInt32.toNat_inj.1 hval)

private theorem utf8EncodeChar_ascii (h : c.utf8Size = 1) : String.utf8EncodeChar c = [c.toUInt8] :=
  String.utf8EncodeChar_eq_singleton h

private theorem le_of_mem_utf8EncodeChar (h : c.utf8Size ≠ 1) : ∀ b ∈ String.utf8EncodeChar c,
    0x80 ≤ b := by
  have hlarge : ¬c.val.toNat ≤ 127 :=
    fun hle => h (Char.utf8Size_eq_one_iff.2 (UInt32.le_iff_toNat_le.2 hle))
  have hbyte {n : Nat} (hn : 128 ≤ n) (hlt : n < 256) : (0x80 : UInt8) ≤ UInt8.ofNat n := by
    rw [UInt8.le_iff_toNat_le, UInt8.toNat_ofNat', Nat.mod_eq_of_lt hlt]
    exact hn
  unfold String.utf8EncodeChar
  dsimp only
  rw [if_neg hlarge]
  split
  · simp only [List.forall_mem_cons, List.not_mem_nil, false_implies, implies_true, and_true]
    exact ⟨hbyte (by omega) (by omega), hbyte (by omega) (by omega)⟩
  split
  · simp only [List.forall_mem_cons, List.not_mem_nil, false_implies, implies_true, and_true]
    exact ⟨hbyte (by omega) (by omega), hbyte (by omega) (by omega), hbyte (by omega) (by omega)⟩
  · simp only [List.forall_mem_cons, List.not_mem_nil, false_implies, implies_true, and_true]
    exact ⟨hbyte (by omega) (by omega), hbyte (by omega) (by omega), hbyte (by omega) (by omega),
      hbyte (by omega) (by omega)⟩

private theorem ne_of_mem_utf8EncodeChar {b : UInt8} (h : c.utf8Size ≠ 1)
    (hb : b ∈ String.utf8EncodeChar c) (hd : d.utf8Size = 1) : b ≠ d.toUInt8 := by
  rintro rfl
  have hle := le_of_mem_utf8EncodeChar h _ hb
  rw [UInt8.le_iff_toNat_le, toNat_toUInt8 hd] at hle
  exact absurd (Nat.le_trans hle (val_toNat_le hd)) (by decide)

private theorem getElem?_octets (front behind : List Char) (j : Nat) :
    (octets (front ++ behind))[byteSize front + j]? = (octets behind)[j]? := by
  rw [octets_append, ← length_octets, List.getElem?_append_right (Nat.le_add_right _ _),
    Nat.add_sub_cancel_left]

/-- At a place between two characters, the byte of a character is seen where that character is
next. -/
theorem getElem?_octets_eq_some (front behind : List Char) (hd : d.utf8Size = 1) :
    (octets (front ++ behind))[byteSize front]? = some d.toUInt8 ↔ behind.head? = some d := by
  have hat := getElem?_octets front behind 0
  rw [Nat.add_zero] at hat
  rw [hat]
  cases behind with
  | nil => simp
  | cons c cs =>
    by_cases hc : c.utf8Size = 1
    · rw [octets_cons, utf8EncodeChar_ascii hc, List.singleton_append, List.getElem?_cons_zero,
        List.head?_cons, Option.some.injEq, Option.some.injEq]
      exact ⟨toUInt8_inj hc hd, congrArg Char.toUInt8⟩
    · have hpos : 0 < (String.utf8EncodeChar c).length := by
        rw [String.length_utf8EncodeChar]
        exact c.utf8Size_pos
      rw [octets_cons, List.getElem?_append_left hpos, List.head?_cons, Option.some.injEq]
      constructor
      · exact fun hbyte => absurd rfl (ne_of_mem_utf8EncodeChar hc (List.mem_of_getElem? hbyte) hd)
      · rintro rfl
        exact absurd hd hc

theorem exists_octet (front : List Char) (c : Char) (cs : List Char) :
    ∃ byte, (octets (front ++ c :: cs))[byteSize front]? = some byte ∧
      ∀ d : Char, d.utf8Size = 1 → (byte = d.toUInt8 ↔ c = d) := by
  have hlt : byteSize front < (octets (front ++ c :: cs)).length := by
    have := c.utf8Size_pos
    rw [length_octets, byteSize_append, byteSize_cons]
    omega
  refine ⟨_, List.getElem?_eq_getElem hlt, fun d hd => ?_⟩
  have hat := getElem?_octets_eq_some front (c :: cs) hd
  rwa [List.getElem?_eq_getElem hlt, Option.some.injEq, List.head?_cons, Option.some.injEq] at hat

theorem getElem?_octets_next (hc : c.utf8Size = 1) (hd : d.utf8Size = 1) :
    (octets (front ++ c :: cs))[byteSize front + 1]? = some d.toUInt8 ↔ cs.head? = some d := by
  have hat := getElem?_octets_eq_some (front ++ [c]) cs hd
  rwa [byteSize_append, byteSize_cons, byteSize_nil, hc, List.append_assoc,
    List.singleton_append] at hat

theorem getElem?_octets_inside (front cs : List Char) {j : Nat} (hpos : 0 < j)
    (hlt : j < c.utf8Size) :
    ∃ byte, (octets (front ++ c :: cs))[byteSize front + j]? = some byte ∧
      ∀ d : Char, d.utf8Size = 1 → byte ≠ d.toUInt8 := by
  have hj : j < (String.utf8EncodeChar c).length := by rwa [String.length_utf8EncodeChar]
  rw [getElem?_octets, octets_cons, List.getElem?_append_left hj, List.getElem?_eq_getElem hj]
  exact ⟨_, rfl, fun d hd => ne_of_mem_utf8EncodeChar (by omega) (List.getElem_mem hj) hd⟩

end Octets

end ApiScript.Text
