import ApiScript.Proofs.Value.Rounding
import ApiScript.Value.Match

set_option autoImplicit false
set_option relaxedAutoImplicit false

/-!
Ranges of integers. A range compares doubles, also where its bounds and the value are integers,
which are then taken for one another if they have the same double.
-/

namespace ApiScript

open Binary64

variable {l : Literal} {i n : Int}

private theorem Literal.bound?_of_integer (h : l.integer? = some i) :
    l.bound? = some (.ofInt i) := by
  cases l with
  | integer s raw value =>
    obtain rfl : value = i := Option.some.inj h
    rfl
  | _ => cases h

/-- A range with integer bounds takes the integers within the bounds, but for this: an integer with
the same double as an included bound is within that bound, and one with the same double as the
excluded bound is not. This makes no difference below two to the power 53, where no integer has the
double of another. -/
theorem Pattern.matches_range_iff (span : Span) {start stop : Option Literal}
    {lower upper : Option Int} (hstart : start.map Literal.integer? = lower.map some)
    (hstop : stop.map Literal.integer? = upper.map some) (inclusive : Bool) (n : Int) :
    ((Pattern.range span start stop inclusive).matches (.int n) = true ↔
      (∀ i ∈ lower, i ≤ n ∨ ofInt i = ofInt n) ∧
        ∀ i ∈ upper, if inclusive then n ≤ i ∨ ofInt n = ofInt i else n < i ∧ ofInt n ≠ ofInt i) ∧
      ∀ i j : Int, ofInt i = ofInt j → i ≠ j → 2 ^ 53 ≤ i.natAbs ∧ 2 ^ 53 ≤ j.natAbs := by
  refine ⟨?_, fun i j => le_natAbs_of_ofInt_eq⟩
  have habove : start.all (fun l => l.bound?.any (·.le (ofInt n))) = true ↔ ∀ i ∈ lower, i ≤ n ∨
      ofInt i = ofInt n := by
    cases start with
    | none =>
      cases lower with
      | none => simp
      | some i => cases hstart
    | some l =>
      cases lower with
      | none => cases hstart
      | some i =>
        have hbound : l.bound? = some (ofInt i) :=
          Literal.bound?_of_integer (Option.some.inj hstart)
        simp only [Option.all_some, hbound, Option.any_some, le_ofInt, Option.mem_some_iff,
          forall_eq']
  have hbelow : stop.all (fun l => l.bound?.any fun bound =>
        if inclusive then (ofInt n).le bound else (ofInt n).lt bound) = true ↔
      ∀ i ∈ upper, if inclusive then n ≤ i ∨ ofInt n = ofInt i else n < i ∧ ofInt n ≠ ofInt i := by
    cases stop with
    | none =>
      cases upper with
      | none => simp
      | some i => cases hstop
    | some l =>
      cases upper with
      | none => cases hstop
      | some i =>
        have hbound : l.bound? = some (ofInt i) := Literal.bound?_of_integer (Option.some.inj hstop)
        cases inclusive with
        | true =>
          simp only [Option.all_some, hbound, Option.any_some, if_true, le_ofInt,
            Option.mem_some_iff, forall_eq']
        | false =>
          simp only [Option.all_some, hbound, Option.any_some, if_false, Bool.false_eq_true,
            lt_ofInt, Option.mem_some_iff, forall_eq']
  rw [Pattern.matches]
  simp only [Value.number?, Bool.and_eq_true, habove, hbelow]

/-- The included end of a range of small integers. -/
theorem Pattern.matches_range_iff_of_end :
    let start : Option Literal := some (.integer ⟨0, 1⟩ "1" 1)
    let stop : Option Literal := some (.integer ⟨4, 5⟩ "3" 3)
    start.map Literal.integer? = (some 1).map some ∧ stop.map Literal.integer? = (some 3).map some ∧
      (Pattern.range ⟨0, 5⟩ start stop true).matches (.int 3) = true := by
  intro start stop
  have hstart : start.map Literal.integer? = (some 1).map some := rfl
  have hstop : stop.map Literal.integer? = (some 3).map some := rfl
  have hwithin : (∀ i ∈ some (1 : Int), i ≤ 3 ∨ ofInt i = ofInt 3) ∧
      ∀ i ∈ some (3 : Int), if true then 3 ≤ i ∨ ofInt 3 = ofInt i else 3 < i ∧
      ofInt 3 ≠ ofInt i := by
    simp
  exact ⟨hstart, hstop, (Pattern.matches_range_iff ⟨0, 5⟩ hstart hstop true 3).1.2 hwithin⟩

/-- A range takes an integer below its start, which the start alone, as a pattern, does not take. -/
theorem Pattern.matches_below_start :
    let start : Literal := .integer ⟨0, 16⟩ "9007199254740993" 9007199254740993
    (Pattern.range ⟨0, 18⟩ (some start) none false).matches (.int 9007199254740992) = true ∧
      start.integer? = some 9007199254740993 ∧ ¬(9007199254740993 : Int) ≤ 9007199254740992 ∧
      (Pattern.literal start).matches (.int 9007199254740992) = false := by
  decide +kernel

end ApiScript
