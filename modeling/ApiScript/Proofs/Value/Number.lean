import ApiScript.Numeral.Quantity
import ApiScript.Proofs.Spelling.Written

set_option autoImplicit false
set_option relaxedAutoImplicit false

/-!
The numbers that are written down are equal to themselves: none of them is read as no number, and
none becomes that when it is multiplied by its unit.
-/

namespace ApiScript

namespace Binary64

theorem eq_self {x : Binary64} (h : x ≠ nan) : x.eq x = true := by
  cases x with
  | nan => exact absurd rfl h
  | signed negative rank => simp [eq, order?]

private theorem mul_ne_nan {x : Binary64} (h : x ≠ nan) (negative : Bool) {rank : Nat}
    (hzero : rank ≠ 0) (hfinite : rank ≠ infinityRank) : x.mul (signed negative rank) ≠ nan := by
  have hinfinity : infinityRank ≠ 0 := by decide
  cases x with
  | nan => exact absurd rfl h
  | signed negative' rank' =>
    unfold mul
    by_cases hrank : rank' = infinityRank
    · simp [hrank, hzero, hinfinity, infinity]
    · simp [hrank, hfinite]

end Binary64

theorem DurationUnit.mul_inSeconds {x : Binary64} (h : x ≠ .nan) (unit : DurationUnit) :
    x.mul unit.inSeconds ≠ .nan := by
  obtain ⟨rank, hunit, hzero, hfinite⟩ : ∃ rank, unit.inSeconds = .signed false rank ∧ rank ≠ 0 ∧
      rank ≠ Binary64.infinityRank := by
    cases unit <;> exact ⟨_, rfl, by decide +kernel, by decide +kernel⟩
  rw [hunit]
  exact Binary64.mul_ne_nan h false hzero hfinite

theorem SizeUnit.mul_inBytes {x : Binary64} (h : x ≠ .nan) (unit : SizeUnit) :
    x.mul (.ofInt unit.inBytes) ≠ .nan := by
  obtain ⟨rank, hunit, hzero, hfinite⟩ : ∃ rank,
      Binary64.ofInt unit.inBytes = .signed false rank ∧ rank ≠ 0 ∧
        rank ≠ Binary64.infinityRank := by
    cases unit <;> exact ⟨_, rfl, by decide +kernel, by decide +kernel⟩
  rw [hunit]
  exact Binary64.mul_ne_nan h false hzero hfinite

namespace Numeral

private theorem toLower_ne_of_isMagnitude {c : Char} (h : isMagnitude c = true) :
    c.toLower ≠ 'n' := by
  simp only [isMagnitude, Bool.or_eq_true, beq_iff_eq] at h
  rcases h with h | rfl
  · have hlower : c.toLower = c := by
      simp only [Char.isDigit, Bool.and_eq_true, decide_eq_true_eq, ge_iff_le] at h
      unfold Char.toLower
      rw [dif_neg]
      rintro ⟨hupper, -⟩
      exact absurd (UInt32.le_trans hupper h.2) (by decide)
    rw [hlower]
    rintro rfl
    cases h
  · decide

private theorem unsignedFloat?_ne_nan {negative : Bool} {c : Char} {cs : List Char}
    (hc : isMagnitude c = true) {x : Binary64} (h : unsignedFloat? negative (c :: cs) = some x) :
    x ≠ .nan := by
  unfold unsignedFloat? at h
  dsimp only at h
  split at h
  · cases h
    exact nofun
  · split at h
    · rename_i hword
      rw [← String.toList_inj, String.toList_ofList, List.map_cons] at hword
      exact absurd (List.cons.inj hword).1 (toLower_ne_of_isMagnitude hc)
    · obtain ⟨⟨value, exponent⟩, -, rfl⟩ := Option.map_eq_some_iff.1 h
      exact nofun

private theorem float?_unsigned {c : Char} {cs : List Char} (hc : isMagnitude c = true) :
    float? (c :: cs) = unsignedFloat? false (c :: cs) := by
  unfold float?
  split
  · rename_i heq
    cases (List.cons.inj heq).1
    cases hc
  · rename_i heq
    cases (List.cons.inj heq).1
    cases hc
  · rfl

theorem float_ne_nan {text : String} (htext : (Lexeme.number .float text).Genuine) {negative : Bool}
    {span : Span} {x : Binary64} (h : float (if negative then "-" ++ text else text) span = .ok x) :
    x ≠ .nan := by
  obtain ⟨c, cs, htext, hdigit⟩ := htext
  have hc : isMagnitude c = true := by rw [isMagnitude, hdigit]; rfl
  obtain ⟨sign, hsome⟩ : ∃ sign, unsignedFloat? sign (c :: cs) = some x := by
    unfold float at h
    split at h
    · rename_i value hvalue
      cases h
      cases negative with
      | true =>
        have hraw : (if true = true then "-" ++ text else text).toList = '-' :: (c :: cs) := by
          rw [if_pos rfl, String.toList_append, htext]
          rfl
        rw [hraw] at hvalue
        exact ⟨true, hvalue⟩
      | false =>
        have hraw : (if false = true then "-" ++ text else text).toList = c :: cs := htext
        rw [hraw, float?_unsigned hc] at hvalue
        exact ⟨false, hvalue⟩
    · cases h
  exact unsignedFloat?_ne_nan hc hsome

theorem quantity_ne_nan {Unit : Type} {kind : NumberClass} {ofSuffix? : String → Option Unit}
    {noSuffix : NumberFault} {raw : String} {span : Span} {x : Binary64} {unit : Unit}
    (h : quantity kind ofSuffix? noSuffix raw span = .ok (x, unit)) : x ≠ .nan := by
  unfold quantity at h
  split at h
  · cases h
  · split at h
    · cases h
    · rename_i hvalue
      cases h
      cases hmagnitude : raw.toList.takeWhile isMagnitude with
      | nil =>
        rw [hmagnitude] at hvalue
        cases hvalue
      | cons c cs =>
        have hc : isMagnitude c = true :=
          List.all_eq_true.1 List.all_takeWhile c (hmagnitude ▸ List.mem_cons_self)
        rw [hmagnitude, float?_unsigned hc] at hvalue
        exact unsignedFloat?_ne_nan hc hvalue

end Numeral

end ApiScript
