import ApiScript.Binary64
import Mathlib.Algebra.Group.Nat.Defs

set_option autoImplicit false
set_option relaxedAutoImplicit false

/-!
Rounding to double precision keeps the order of whole numbers. Two of them are rounded to the same
double only where doubles lie more than one apart, which none do below two to the power 53.
-/

namespace ApiScript.Binary64

section Quotients

variable {num num' den : Nat}

private theorem le_roundDiv (num den : Nat) : num / den ≤ roundDiv num den := by
  unfold roundDiv
  dsimp only
  split
  · exact Nat.le_refl _
  · exact Nat.le_succ _

private theorem roundDiv_le (num den : Nat) : roundDiv num den ≤ num / den + 1 := by
  unfold roundDiv
  dsimp only
  split
  · exact Nat.le_succ _
  · exact Nat.le_refl _

private theorem roundDiv_of_dvd (hden : 0 < den) (h : den ∣ num) :
    roundDiv num den = num / den := by
  have hrest : 2 * (num % den) < den := by rwa [Nat.mod_eq_zero_of_dvd h, Nat.mul_zero]
  unfold roundDiv
  exact if_pos (.inl hrest)

private theorem roundDiv_mono (h : num ≤ num') : roundDiv num den ≤ roundDiv num' den := by
  have hquotient : num / den ≤ num' / den := Nat.div_le_div_right h
  rcases Nat.eq_or_lt_of_le hquotient with heq | hlt
  · -- Of two numbers with the same quotient, the one with the greater rest is rounded up if the
    -- other is.
    have hrest : num % den ≤ num' % den := by
      have hnum := Nat.div_add_mod num den
      have hnum' := Nat.div_add_mod num' den
      rw [heq] at hnum
      omega
    unfold roundDiv
    rw [heq]
    dsimp only
    split <;> split <;> omega
  · calc
      roundDiv num den ≤ num / den + 1 := roundDiv_le num den
      _ ≤ num' / den := hlt
      _ ≤ roundDiv num' den := le_roundDiv num' den

end Quotients

section Ranks

variable {units units' : Nat}

/-- How many times a number of units is halved to be written as a significand. -/
private def scale (units : Nat) : Nat := units.log2 - 52

/-- The rank of a number of units, as if no magnitude were too great to have one. -/
private def fullRank (units : Nat) : Nat := scale units * binade + roundDiv units (2 ^ scale units)

private theorem nearestRank_one (units : Nat) :
    nearestRank units 1 = min infinityRank (fullRank units) := by
  unfold nearestRank fullRank scale
  dsimp only
  rw [Nat.div_one, Nat.one_mul, Nat.pow_eq]

private theorem two_pow_binade : 2 ^ 52 = binade := by decide

private theorem scale_mono (h : units ≤ units') : scale units ≤ scale units' := by
  have hlog : units.log2 ≤ units'.log2 := by
    by_cases hzero : units = 0
    · rw [hzero, Nat.log2_zero]
      exact Nat.zero_le _
    · rw [Nat.le_log2 (by omega)]
      exact Nat.le_trans (Nat.log2_self_le hzero) h
  exact Nat.sub_le_sub_right hlog 52

private theorem significand_lt (units : Nat) : units / 2 ^ scale units < 2 * binade := by
  apply Nat.div_lt_of_lt_mul
  have hlog : units < 2 ^ (units.log2 + 1) := Nat.lt_log2_self
  have hscale : units.log2 + 1 ≤ scale units + 53 := by
    unfold scale
    omega
  have hbinades : 2 ^ 53 = 2 * binade := by decide
  calc
    units < 2 ^ (units.log2 + 1) := hlog
    _ ≤ 2 ^ (scale units + 53) := Nat.pow_le_pow_right (by decide) hscale
    _ = 2 ^ scale units * (2 * binade) := by rw [Nat.pow_add, hbinades]

private theorem le_significand (h : 0 < scale units) : binade ≤ units / 2 ^ scale units := by
  rw [Nat.le_div_iff_mul_le (Nat.two_pow_pos _), ← two_pow_binade, ← Nat.pow_add]
  have hlog : 52 + scale units = units.log2 := by
    unfold scale at h ⊢
    omega
  have hunits : units ≠ 0 := by
    rintro rfl
    rw [scale, Nat.log2_zero] at h
    omega
  rw [hlog]
  exact Nat.log2_self_le hunits

private theorem fullRank_le (units : Nat) : fullRank units ≤ (scale units + 2) * binade := by
  have hround := roundDiv_le units (2 ^ scale units)
  have hsignificand := significand_lt units
  rw [fullRank, Nat.add_mul]
  omega

private theorem le_fullRank (h : 0 < scale units) :
    (scale units + 1) * binade ≤ fullRank units := by
  have hround := le_roundDiv units (2 ^ scale units)
  have hsignificand := le_significand h
  rw [fullRank, Nat.add_mul]
  omega

private theorem fullRank_mono (h : units ≤ units') : fullRank units ≤ fullRank units' := by
  rcases Nat.eq_or_lt_of_le (scale_mono h) with hscale | hscale
  · have hround : roundDiv units (2 ^ scale units') ≤ roundDiv units' (2 ^ scale units') :=
      roundDiv_mono h
    rw [fullRank, fullRank, hscale]
    exact Nat.add_le_add_left hround _
  · have hbetween : (scale units + 2) * binade ≤ (scale units' + 1) * binade :=
      Nat.mul_le_mul_right _ (by omega)
    calc
      fullRank units ≤ (scale units + 2) * binade := fullRank_le units
      _ ≤ (scale units' + 1) * binade := hbetween
      _ ≤ fullRank units' := le_fullRank (Nat.zero_lt_of_lt hscale)

private theorem fullRank_lt (hexact : 2 ^ scale units ∣ units)
    (h : units + 2 ^ scale units ≤ units') :
    fullRank units < fullRank units' := by
  have hpos : 0 < 2 ^ scale units := Nat.two_pow_pos _
  have hround : roundDiv units (2 ^ scale units) = units / 2 ^ scale units :=
    roundDiv_of_dvd hpos hexact
  rcases Nat.eq_or_lt_of_le
    (scale_mono (Nat.le_trans (Nat.le_add_right _ _) h)) with hscale | hscale
  · have hnext : units / 2 ^ scale units + 1 ≤ units' / 2 ^ scale units := by
      rw [← Nat.add_div_right units hpos]
      exact Nat.div_le_div_right h
    have hround' := le_roundDiv units' (2 ^ scale units)
    rw [fullRank, fullRank, ← hscale, hround]
    omega
  · have hbetween : (scale units + 2) * binade ≤ (scale units' + 1) * binade :=
      Nat.mul_le_mul_right _ (by omega)
    have hupper : fullRank units < (scale units + 2) * binade := by
      have hsignificand := significand_lt units
      rw [fullRank, hround, Nat.add_mul]
      omega
    calc
      fullRank units < (scale units + 2) * binade := hupper
      _ ≤ (scale units' + 1) * binade := hbetween
      _ ≤ fullRank units' := le_fullRank (Nat.zero_lt_of_lt hscale)

end Ranks

section Integers

variable {a b : Nat} {m n : Int}

def rankOf (a : Nat) : Nat := nearestRank (a * unitsPerOne) 1

private theorem rankOf_mono (h : a ≤ b) : rankOf a ≤ rankOf b := by
  have hfull : fullRank (a * unitsPerOne) ≤ fullRank (b * unitsPerOne) :=
    fullRank_mono (Nat.mul_le_mul_right _ h)
  rw [rankOf, rankOf, nearestRank_one, nearestRank_one]
  omega

private theorem scale_of_lt (h : a < 2 ^ 53) (e : Nat) : scale (a * 2 ^ e) ≤ e := by
  by_cases hzero : a * 2 ^ e = 0
  · rw [hzero, scale, Nat.log2_zero]
    exact Nat.zero_le _
  · have hlog : (a * 2 ^ e).log2 < 53 + e := by
      rw [Nat.log2_lt hzero, Nat.pow_add]
      exact Nat.mul_lt_mul_of_pos_right h (Nat.two_pow_pos _)
    rw [scale]
    omega

private theorem unitsPerOne_eq_pow : ∃ e ≤ 1074, unitsPerOne = Nat.pow 2 e :=
  ⟨1074, Nat.le_refl _, rfl⟩

private theorem rankOf_lt (ha : a < 2 ^ 53) (h : a < b) : rankOf a < rankOf b := by
  obtain ⟨e, he, hunits⟩ := unitsPerOne_eq_pow
  rw [rankOf, rankOf, nearestRank_one, nearestRank_one, hunits, Nat.pow_eq]
  have hscale : scale (a * 2 ^ e) ≤ e := scale_of_lt ha e
  have hdigit : 2 ^ scale (a * 2 ^ e) ∣ 2 ^ e := Nat.pow_dvd_pow 2 hscale
  have hstep : a * 2 ^ e + 2 ^ scale (a * 2 ^ e) ≤ b * 2 ^ e := by
    calc
      a * 2 ^ e + 2 ^ scale (a * 2 ^ e) ≤ a * 2 ^ e + 2 ^ e :=
        Nat.add_le_add_left (Nat.le_of_dvd (Nat.two_pow_pos e) hdigit) _
      _ = (a + 1) * 2 ^ e := (Nat.add_one_mul a _).symm
      _ ≤ b * 2 ^ e := Nat.mul_le_mul_right _ h
  have hfull : fullRank (a * 2 ^ e) < fullRank (b * 2 ^ e) :=
    fullRank_lt (Nat.dvd_trans hdigit (Nat.dvd_mul_left _ _)) hstep
  have hfinite : fullRank (a * 2 ^ e) < infinityRank := by
    have hupper := fullRank_le (a * 2 ^ e)
    have hbinades : (scale (a * 2 ^ e) + 2) * binade ≤ 1076 * binade :=
      Nat.mul_le_mul_right _ (by omega)
    have hinfinity : 1076 * binade < infinityRank := by decide
    omega
  rw [Nat.min_eq_right (Nat.le_of_lt hfinite)]
  exact Nat.lt_min.2 ⟨hfinite, hfull⟩

private theorem eq_of_rankOf_eq (ha : a < 2 ^ 53) (h : rankOf a = rankOf b) : a = b := by
  rcases Nat.lt_trichotomy a b with hlt | heq | hgt
  · exact absurd h (Nat.ne_of_lt (rankOf_lt ha hlt))
  · exact heq
  · exact absurd h (Nat.ne_of_gt (rankOf_lt (Nat.lt_trans hgt ha) hgt))

/-- The place of an integer's double in the order of all doubles. -/
def place (n : Int) : Int := if n < 0 then -(rankOf n.natAbs : Int) else rankOf n.natAbs

private theorem order?_ofInt (n : Int) : (ofInt n).order? = some (place n) := by
  unfold ofInt order? place rankOf
  by_cases h : n < 0
  · simp only [h, decide_true, if_true]
  · simp only [h, decide_false, if_false, Bool.false_eq_true]

private theorem place_mono (h : m ≤ n) : place m ≤ place n := by
  unfold place
  by_cases hm : m < 0
  · by_cases hn : n < 0
    · have hrank : rankOf n.natAbs ≤ rankOf m.natAbs := rankOf_mono (by omega)
      rw [if_pos hm, if_pos hn]
      omega
    · rw [if_pos hm, if_neg hn]
      omega
  · have hn : ¬n < 0 := by omega
    have hrank : rankOf m.natAbs ≤ rankOf n.natAbs := rankOf_mono (by omega)
    rw [if_neg hm, if_neg hn]
    omega

private theorem natAbs_place (n : Int) : (place n).natAbs = rankOf n.natAbs := by
  unfold place
  split
  · rw [Int.natAbs_neg, Int.natAbs_natCast]
  · rw [Int.natAbs_natCast]

private theorem place_neg (n : Int) : place n < 0 ↔ n < 0 := by
  by_cases hn : n < 0
  · have hrank : rankOf 0 < rankOf n.natAbs := rankOf_lt (by decide) (by omega)
    rw [place, if_pos hn]
    omega
  · rw [place, if_neg hn]
    omega

/-- Integers have the same double where they have the same place. -/
private theorem place_inj : place m = place n ↔ ofInt m = ofInt n := by
  constructor
  · intro h
    have hsign : m < 0 ↔ n < 0 := by rw [← place_neg m, ← place_neg n, h]
    have hrank : rankOf m.natAbs = rankOf n.natAbs := by rw [← natAbs_place, ← natAbs_place, h]
    change signed (decide (m < 0)) (rankOf m.natAbs) = signed (decide (n < 0)) (rankOf n.natAbs)
    rw [hrank, decide_eq_decide.2 hsign]
  · intro h
    have horder := congrArg order? h
    rw [order?_ofInt, order?_ofInt] at horder
    exact Option.some.inj horder

theorem le_ofInt : (ofInt m).le (ofInt n) = true ↔ m ≤ n ∨ ofInt m = ofInt n := by
  have hle : (ofInt m).le (ofInt n) = decide (place m ≤ place n) := by
    unfold le
    rw [order?_ofInt, order?_ofInt]
  rw [hle, decide_eq_true_iff, ← place_inj]
  constructor
  · intro h
    by_cases hmn : m ≤ n
    · exact .inl hmn
    · have hback : place n ≤ place m := place_mono (by omega)
      exact .inr (Int.le_antisymm h hback)
  · rintro (h | h)
    · exact place_mono h
    · exact Int.le_of_eq h

theorem lt_ofInt : (ofInt m).lt (ofInt n) = true ↔ m < n ∧ ofInt m ≠ ofInt n := by
  have hlt : (ofInt m).lt (ofInt n) = decide (place m < place n) := by
    unfold lt
    rw [order?_ofInt, order?_ofInt]
  rw [hlt, decide_eq_true_iff, Ne, ← place_inj]
  constructor
  · intro h
    have hne : place m ≠ place n := Int.ne_of_lt h
    refine ⟨?_, hne⟩
    by_cases hnm : n ≤ m
    · have hback : place n ≤ place m := place_mono hnm
      omega
    · omega
  · rintro ⟨h, hne⟩
    have hle : place m ≤ place n := place_mono (Int.le_of_lt h)
    omega

/-- Of two integers with the same double, neither is below two to the power 53. -/
theorem le_natAbs_of_ofInt_eq (h : ofInt m = ofInt n) (hne : m ≠ n) :
    2 ^ 53 ≤ m.natAbs ∧ 2 ^ 53 ≤ n.natAbs := by
  have hplace : place m = place n := place_inj.2 h
  have hsign : m < 0 ↔ n < 0 := by rw [← place_neg m, ← place_neg n, hplace]
  have hrank : rankOf m.natAbs = rankOf n.natAbs := by rw [← natAbs_place, ← natAbs_place, hplace]
  have hmagnitude : m.natAbs ≠ n.natAbs := by omega
  refine ⟨Nat.le_of_not_lt fun hm => ?_, Nat.le_of_not_lt fun hn => ?_⟩
  · exact hmagnitude (eq_of_rankOf_eq hm hrank)
  · exact hmagnitude (eq_of_rankOf_eq hn hrank.symm).symm

end Integers

end ApiScript.Binary64
