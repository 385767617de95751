import ApiScript.Numeral.Integer
import Mathlib.Data.Nat.Digits.Defs
import Mathlib.Tactic.IntervalCases

set_option autoImplicit false
set_option relaxedAutoImplicit false

/-!
The integers that are accepted are those of one format, spelled out here apart from the reader: an
optional minus sign, an optional mark of a radix, an optional plus sign, and digits, with a value
that 64 bits hold.
-/

namespace ApiScript

namespace Numeral

/-! ### Digits -/

/-- The digits in the order of their values, with letters of each case. -/
def lowerDigits : List Char :=
  ['0', '1', '2', '3', '4', '5', '6', '7', '8', '9', 'a', 'b', 'c', 'd', 'e', 'f']

@[inherit_doc lowerDigits]
def upperDigits : List Char :=
  ['0', '1', '2', '3', '4', '5', '6', '7', '8', '9', 'A', 'B', 'C', 'D', 'E', 'F']

def IsDigit (radix : Nat) (c : Char) (value : Nat) : Prop :=
  value < radix ∧ (lowerDigits[value]? = some c ∨ upperDigits[value]? = some c)

/-- A run of one or more digits of a radix. It is worth `n`, the first digit counting most. -/
def Digits (radix : Nat) (cs : List Char) (n : Nat) : Prop :=
  ∃ values, cs ≠ [] ∧ List.Forall₂ (IsDigit radix) cs values ∧ n = Nat.ofDigits radix values.reverse

theorem char_between {a b c : Char} (ha : a ≤ c) (hb : c ≤ b) :
    c.toNat - a.toNat ≤ b.toNat - a.toNat ∧ c = Char.ofNat (a.toNat + (c.toNat - a.toNat)) := by
  have ha : a.toNat ≤ c.toNat := ha
  have hb : c.toNat ≤ b.toNat := hb
  refine ⟨Nat.sub_le_sub_right hb _, ?_⟩
  rw [Nat.add_sub_cancel' ha, Char.ofNat_toNat]

theorem lowerDigits_decimal :
    ∀ n < 10, lowerDigits[n]? = some (Char.ofNat ('0'.toNat + n)) := by decide

theorem lowerDigits_letter :
    ∀ n < 6, lowerDigits[n + 10]? = some (Char.ofNat ('a'.toNat + n)) := by decide

theorem upperDigits_letter :
    ∀ n < 6, upperDigits[n + 10]? = some (Char.ofNat ('A'.toNat + n)) := by decide

private theorem isDigit_of_digit? {radix : Nat} {c : Char} {value : Nat}
    (h : digit? radix c = some value) :
    IsDigit radix c value := by
  obtain ⟨h, hlt⟩ := Option.filter_eq_some_iff.mp h
  refine ⟨of_decide_eq_true hlt, ?_⟩
  split at h
  · rename_i hdigit
    simp only [Char.isDigit, ge_iff_le, Bool.and_eq_true, decide_eq_true_eq] at hdigit
    obtain ⟨hle, hc⟩ := char_between (a := '0') (b := '9') hdigit.1 hdigit.2
    cases h
    exact .inl (by rw [lowerDigits_decimal _ (Nat.lt_succ_of_le hle), ← hc])
  · split at h
    · rename_i hletter
      obtain ⟨hle, hc⟩ := char_between hletter.1 hletter.2
      cases h
      exact .inl (by rw [lowerDigits_letter _ (Nat.lt_succ_of_le hle), ← hc])
    · split at h
      · rename_i hletter
        obtain ⟨hle, hc⟩ := char_between hletter.1 hletter.2
        cases h
        exact .inr (by rw [upperDigits_letter _ (Nat.lt_succ_of_le hle), ← hc])
      · cases h

theorem digit?_of_isDigit {radix : Nat} {c : Char} {value : Nat} (h : IsDigit radix c value) :
    digit? radix c = some value := by
  obtain ⟨hlt, hc | hc⟩ := h
  · obtain ⟨hvalue, -⟩ := List.getElem?_eq_some_iff.mp hc
    change value < 16 at hvalue
    interval_cases value <;> cases hc <;> simp [digit?, hlt]
  · obtain ⟨hvalue, -⟩ := List.getElem?_eq_some_iff.mp hc
    change value < 16 at hvalue
    interval_cases value <;> cases hc <;> simp [digit?, hlt]

private theorem digit?_eq_some {radix : Nat} {c : Char} {value : Nat} :
    digit? radix c = some value ↔ IsDigit radix c value :=
  ⟨isDigit_of_digit?, digit?_of_isDigit⟩

private theorem foldlM_digits {radix : Nat} {cs : List Char} {start n : Nat} :
    cs.foldlM (fun value c => (digit? radix c).map (value * radix + ·)) start = some n ↔
      ∃ values, List.Forall₂ (IsDigit radix) cs values ∧
        values.foldl (fun value d => value * radix + d) start = n := by
  induction cs generalizing start with
  | nil =>
    rw [List.foldlM_nil]
    constructor
    · intro h
      exact ⟨[], .nil, Option.some.inj h⟩
    · rintro ⟨values, hvalues, hn⟩
      cases hvalues
      exact congrArg some hn
  | cons c cs ih =>
    simp only [List.foldlM_cons, Option.bind_eq_bind, Option.bind_eq_some_iff,
      Option.map_eq_some_iff, ih, digit?_eq_some]
    constructor
    · rintro ⟨_, ⟨d, hd, rfl⟩, values, hvalues, hn⟩
      exact ⟨d :: values, .cons hd hvalues, hn⟩
    · rintro ⟨values, hvalues, hn⟩
      cases hvalues with
      | cons hd hvalues => exact ⟨_, ⟨_, hd, rfl⟩, _, hvalues, hn⟩

private theorem foldl_eq_ofDigits (radix : Nat) (values : List Nat) :
    values.foldl (fun value d => value * radix + d) 0 = Nat.ofDigits radix values.reverse := by
  rw [Nat.ofDigits_eq_foldr, List.foldr_reverse]
  simp only [Nat.cast_id, Nat.mul_comm, Nat.add_comm]

theorem digits?_eq_some {radix : Nat} {cs : List Char} {n : Nat} :
    digits? radix cs = some n ↔ Digits radix cs n := by
  unfold digits? Digits
  cases cs with
  | nil => simp
  | cons c cs =>
    rw [List.isEmpty_cons, if_neg Bool.false_ne_true, foldlM_digits]
    simp only [foldl_eq_ofDigits, ne_eq, reduceCtorEq, not_false_eq_true, true_and,
      eq_comm (a := n)]

/-! ### The format -/

/-- The marks of the radixes. A text without a mark is decimal. -/
def radixMarks : List (String × Nat) :=
  [("", 10), ("0x", 16), ("0X", 16), ("0o", 8), ("0O", 8), ("0b", 2), ("0B", 2)]

/-- A radix mark, a plus sign or none, and digits of the radix that are worth `n`. -/
def Unsigned (cs : List Char) (n : Nat) : Prop :=
  ∃ mark ∈ radixMarks, ∃ plus ∈ ["", "+"], ∃ ds,
    cs = mark.1.toList ++ plus.toList ++ ds ∧ Digits mark.2 ds n

/-- A text of the format, and the integer that it spells. -/
inductive Spells : List Char → Int → Prop
  | positive {cs : List Char} {n : Nat} : Unsigned cs n → Spells cs n
  | negative {cs : List Char} {n : Nat} : Unsigned cs n → Spells ('-' :: cs) (-n)

theorem Digits.isDigit_of_mem {radix : Nat} {cs : List Char} {n : Nat} (h : Digits radix cs n)
    {c : Char} (hc : c ∈ cs) : ∃ d, IsDigit radix c d := by
  obtain ⟨values, -, hvalues, -⟩ := h
  clear n
  induction hvalues with
  | nil => cases hc
  | cons hd _ ih =>
    obtain rfl | hc := List.mem_cons.mp hc
    · exact ⟨_, hd⟩
    · exact ih hc

private theorem radixMark_spells (cs : List Char) :
    ∃ mark ∈ radixMarks, cs = mark.1.toList ++ (radixMark cs).2 ∧ mark.2 = (radixMark cs).1 := by
  unfold radixMark
  split
  · exact ⟨("0x", 16), by decide, rfl, rfl⟩
  · exact ⟨("0X", 16), by decide, rfl, rfl⟩
  · exact ⟨("0o", 8), by decide, rfl, rfl⟩
  · exact ⟨("0O", 8), by decide, rfl, rfl⟩
  · exact ⟨("0b", 2), by decide, rfl, rfl⟩
  · exact ⟨("0B", 2), by decide, rfl, rfl⟩
  · exact ⟨("", 10), by decide, rfl, rfl⟩

private theorem dropPlus_spells (cs : List Char) :
    ∃ plus ∈ ["", "+"], cs = plus.toList ++ dropPlus cs := by
  unfold dropPlus
  split
  · exact ⟨"+", by decide, rfl⟩
  · exact ⟨"", by decide, rfl⟩

private theorem dropPlus_digits {radix : Nat} {ds : List Char} {n : Nat} (h : Digits radix ds n) :
    dropPlus ds = ds := by
  unfold dropPlus
  split
  · obtain ⟨d, hd⟩ := h.isDigit_of_mem (List.mem_cons_self ..)
    cases digit?_of_isDigit hd
  · rfl

private theorem dropPlus_append {radix : Nat} {plus : String} (hplus : plus ∈ ["", "+"])
    {ds : List Char} {n : Nat} (h : Digits radix ds n) : dropPlus (plus.toList ++ ds) = ds := by
  simp only [List.mem_cons, List.not_mem_nil, or_false] at hplus
  obtain rfl | rfl := hplus
  · exact dropPlus_digits h
  · rfl

private theorem radixMark_decimal {ds : List Char} {n : Nat} (h : Digits 10 ds n) :
    radixMark ds = (10, ds) := by
  unfold radixMark
  split
  case h_7 => rfl
  all_goals
    obtain ⟨d, hd⟩ := h.isDigit_of_mem (List.mem_cons_of_mem _ (List.mem_cons_self ..))
    cases digit?_of_isDigit hd

private theorem radixMark_append {mark : String × Nat} (hmark : mark ∈ radixMarks) {plus : String}
    (hplus : plus ∈ ["", "+"]) {ds : List Char} {n : Nat} (h : Digits mark.2 ds n) :
    radixMark (mark.1.toList ++ plus.toList ++ ds) = (mark.2, plus.toList ++ ds) := by
  simp only [radixMarks, List.mem_cons, List.not_mem_nil, or_false] at hmark hplus
  obtain rfl | rfl | rfl | rfl | rfl | rfl | rfl := hmark
  · obtain rfl | rfl := hplus
    · exact radixMark_decimal h
    · rfl
  all_goals rfl

private theorem magnitude?_eq_some {cs : List Char} {n : Nat} : magnitude? cs = some n ↔
    Unsigned cs n := by
  constructor
  · intro h
    obtain ⟨mark, hmark, hcs, hradix⟩ := radixMark_spells cs
    obtain ⟨plus, hplus, hrest⟩ := dropPlus_spells (radixMark cs).2
    refine ⟨mark, hmark, plus, hplus, dropPlus (radixMark cs).2, ?_, ?_⟩
    · rw [List.append_assoc, ← hrest, ← hcs]
    · rw [hradix]
      exact digits?_eq_some.mp h
  · rintro ⟨mark, hmark, plus, hplus, ds, rfl, hds⟩
    rw [magnitude?, radixMark_append hmark hplus hds]
    dsimp only
    rw [dropPlus_append hplus hds]
    exact digits?_eq_some.mpr hds

private theorem not_unsigned_minus {cs : List Char} {n : Nat} (h : Unsigned ('-' :: cs) n) :
    False := by
  have hdigits : digits? 10 ('-' :: cs) = some n := magnitude?_eq_some.mpr h
  cases hdigits

theorem integer?_eq_some {cs : List Char} {v : Int} : integer? cs = some v ↔ Spells cs v := by
  unfold integer?
  split
  · rw [Option.map_eq_some_iff]
    constructor
    · rintro ⟨n, hn, rfl⟩
      exact .negative (magnitude?_eq_some.mp hn)
    · intro h
      cases h with
      | positive h => exact (not_unsigned_minus h).elim
      | negative h => exact ⟨_, magnitude?_eq_some.mpr h, rfl⟩
  · rename_i hminus
    rw [Option.map_eq_some_iff]
    constructor
    · rintro ⟨n, hn, rfl⟩
      exact .positive (magnitude?_eq_some.mp hn)
    · intro h
      cases h with
      | positive h => exact ⟨_, magnitude?_eq_some.mpr h, rfl⟩
      | negative h => exact (hminus _ rfl).elim

/-! ### The bounds -/

def Fits (v : Int) : Prop :=
  Int64.minValue.toInt ≤ v ∧ v ≤ Int64.maxValue.toInt

instance (v : Int) : Decidable (Fits v) := inferInstanceAs (Decidable (_ ∧ _))

private theorem fits_iff {v : Int} : Fits v ↔ -0x8000000000000000 ≤ v ∧ v < 0x8000000000000000 := by
  have hmin : Int64.minValue.toInt = -0x8000000000000000 := rfl
  have hmax : Int64.maxValue.toInt = 0x7fffffffffffffff := rfl
  unfold Fits
  omega

private theorem fitting_eq_some {cs : List Char} {v : Int} :
    (integer? cs).filter (fun v => -0x8000000000000000 ≤ v ∧ v < 0x8000000000000000) = some v ↔
      Spells cs v ∧ Fits v := by
  rw [Option.filter_eq_some_iff, integer?_eq_some, decide_eq_true_iff, fits_iff]

theorem integer_eq_ok {raw : String} {span : Span} {v : Int} :
    integer raw span = .ok v ↔ Spells raw.toList v ∧ Fits v := by
  rw [← fitting_eq_some, integer]
  split
  · rename_i heq
    rw [heq, Except.ok.injEq, Option.some.injEq]
  · rename_i heq
    rw [heq]
    exact ⟨fun h => (by cases h), fun h => (by cases h)⟩

theorem integer_eq_error {raw : String} {span : Span} {e : LexicalError} :
    integer raw span = .error e ↔
      e = ⟨.invalidNumber .integer raw .outOfRange, span⟩ ∧ ∀ v,
      ¬ (Spells raw.toList v ∧ Fits v) := by
  simp only [← fitting_eq_some, integer]
  split
  · rename_i v heq
    constructor
    · intro h
      cases h
    · rintro ⟨-, hnone⟩
      exact absurd heq (hnone v)
  · rename_i heq
    rw [heq, Except.error.injEq]
    constructor
    · rintro rfl
      exact ⟨rfl, fun v h => by cases h⟩
    · rintro ⟨rfl, -⟩
      rfl

/-- The integers that are accepted are the texts of the format whose value fits 64 bits. Every other
text is refused as it stands, and at its place. -/
theorem integer_accepts (raw : String) (span : Span) :
    (∀ v, integer raw span = .ok v ↔ Spells raw.toList v ∧ Fits v) ∧
      ∀ e, integer raw span = .error e ↔
        e = ⟨.invalidNumber .integer raw .outOfRange, span⟩ ∧ ∀ v,
        ¬ (Spells raw.toList v ∧ Fits v) :=
  ⟨fun _ => integer_eq_ok, fun _ => integer_eq_error⟩

example : integer "-0x+008000000000000000" ⟨0, 22⟩ = .ok (-0x8000000000000000) := by rfl

end Numeral

end ApiScript
