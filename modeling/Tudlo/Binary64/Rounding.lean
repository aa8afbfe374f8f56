import Tudlo.Binary64.Basic

/-!
# Rounding to 64 bits

Every operation on decimals is computed exactly and then rounded once. The
exact result is a quotient of natural numbers, measured in units of 2^-1074,
and it is rounded to the nearest magnitude of the format. A result halfway
between two magnitudes goes to the one of even rank, and one too large for
the format goes to infinity.

* `nearest`: a quotient rounded to the nearest natural number, halves to even;
* `roundRank`: the rank of the magnitude nearest to a quotient of units;
* `ofUnits`, `ofQuotient`, `ofInt`: the values nearest to a number of units,
  to a quotient and to an integer.
-/

namespace Tudlo.Binary64

/-- The natural number nearest to `num / den`, the even one of two equally
    near. -/
def nearest (num den : Nat) : Nat :=
  let whole := num / den
  match compare (2 * (num % den)) den with
  | .lt => whole
  | .gt => whole + 1
  | .eq => whole + whole % 2

/-- The rank of the magnitude nearest to `num / den` units. The shift is that
    of the binade where the quotient lies, so that `nearest` counts the
    magnitudes of that binade; a count that reaches the next binade gives the
    rank of its first magnitude, as it should. -/
def roundRank (num den : Nat) : Nat :=
  let shift := (num / den).log2 - 52
  shift * binade + nearest num (den * Nat.pow 2 shift)

/-- The value nearest to `num / den` units, of the given sign. -/
def ofUnits (negative : Bool) (num den : Nat) : Binary64 :=
  ofRank negative (roundRank num den)

/-- The value nearest to `num / den`, of the given sign. -/
def ofQuotient (negative : Bool) (num den : Nat) : Binary64 :=
  ofUnits negative (num * one) den

/-- The value nearest to the integer `n`. -/
def ofInt (n : Int) : Binary64 :=
  ofQuotient (n < 0) n.natAbs 1

/-! ### First facts -/

/-- A quotient that is a whole number is its own nearest number. -/
theorem nearest_mul {den : Nat} (n : Nat) (h : 0 < den) : nearest (n * den) den = n := by
  have hc : compare 0 den = .lt := Nat.compare_eq_lt.2 h
  simp [nearest, h, hc]

end Tudlo.Binary64
