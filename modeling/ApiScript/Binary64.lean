set_option autoImplicit false
set_option relaxedAutoImplicit false

/-!
Double precision numbers, computed exactly. A magnitude is named by its rank, the number of
magnitudes below it, so that ranks are ordered as magnitudes are; a rank is also the magnitude's
encoding. Every finite magnitude is a whole number of units of two to the power -1074.
-/

namespace ApiScript

/-- A number with a sign, infinities included, or no number. -/
inductive Binary64
  | nan
  | signed (negative : Bool) (rank : Nat)
  deriving DecidableEq

namespace Binary64

/-- How many ranks there are from one power of two to the next, which is two to the power 52. -/
def binade : Nat := 0x10000000000000

def infinityRank : Nat := 2047 * binade

/-- How many units make one. -/
def unitsPerOne : Nat := Nat.pow 2 1074

/-- The magnitude of a finite rank, in units. -/
def units (rank : Nat) : Nat :=
  if rank < binade then rank else (binade + rank % binade) * Nat.pow 2 (rank / binade - 1)

/-- The quotient rounded to the nearest whole number, a half to the even one. -/
def roundDiv (num den : Nat) : Nat :=
  let quotient := num / den
  let rest := 2 * (num % den)
  if rest < den ∨ rest = den ∧ quotient % 2 = 0 then quotient else quotient + 1

/-- The rank of the magnitude nearest to `num / den` units, ties going to the even significand. -/
def nearestRank (num den : Nat) : Nat :=
  let scale := (num / den).log2 - 52
  min infinityRank (scale * binade + roundDiv num (den * Nat.pow 2 scale))

def infinity (negative : Bool) : Binary64 := signed negative infinityRank

def ofInt (n : Int) : Binary64 := signed (n < 0) (nearestRank (n.natAbs * unitsPerOne) 1)

/-- The number nearest to `digits` times ten to the power `exponent`. An exponent far out of range
settles the answer by itself: the quotient is then below half a unit, or the product above all
finite magnitudes. -/
def ofDecimal (negative : Bool) (digits : Nat) (exponent : Int) : Binary64 :=
  signed negative <|
    if digits = 0 then 0
    else match exponent with
      | .ofNat e =>
        if 310 ≤ e then infinityRank else nearestRank (digits * Nat.pow 10 e * unitsPerOne) 1
      | .negSucc e =>
        if digits.log2 + 1080 < 3 * e then 0 else
          nearestRank (digits * unitsPerOne) (Nat.pow 10 (e + 1))

def mul : Binary64 → Binary64 → Binary64
  | signed n a, signed m b =>
    if a = infinityRank ∨ b = infinityRank then
      if a = 0 ∨ b = 0 then nan else infinity (n != m)
    else signed (n != m) (nearestRank (units a * units b) unitsPerOne)
  | _, _ => nan

/-- The place of a number in the order of all numbers; both zeros have the same. -/
def order? : Binary64 → Option Int
  | nan => none
  | signed negative rank => some (if negative then -(rank : Int) else rank)

/-- Numeric equality, which no comparison with `nan` fulfils. -/
def eq (a b : Binary64) : Bool :=
  match a.order?, b.order? with
  | some x, some y => x == y
  | _, _ => false

def le (a b : Binary64) : Bool :=
  match a.order?, b.order? with
  | some x, some y => x ≤ y
  | _, _ => false

def lt (a b : Binary64) : Bool :=
  match a.order?, b.order? with
  | some x, some y => x < y
  | _, _ => false

/-- The 64 bits of a number's encoding: its sign, and its rank in the other 63. -/
def bits? : Binary64 → Option Nat
  | nan => none
  | signed negative rank => some (if negative then rank + 0x8000000000000000 else rank)

/-- The number as a whole count of parts, `parts` to one; a negative number and `nan` count none,
and infinity has no count. -/
def count? (parts : Nat) : Binary64 → Option Nat
  | signed false rank =>
    if rank = infinityRank then none else some (roundDiv (units rank * parts) unitsPerOne)
  | _ => some 0

end Binary64

end ApiScript
