import Tudlo.Binary64.Rounding

/-!
# Integers on 64 bits

The integers of the language are signed and 64 bits wide, and no operation
wraps around. Each one computes the exact integer and then asks whether it
fits (`narrow?`); when it does not, there is no result.

Division goes toward zero, and the remainder belongs to that division. So the
remainder is refused together with its quotient: the least integer divided by
minus one has neither, although the exact remainder is zero.

An integer becomes a decimal (`toBinary64?`) only when its magnitude is below
`2 ^ 53`, where every integer is a decimal of its own.
-/

namespace Tudlo.Integer

/-- The 64-bit integer equal to `n`, if there is one. -/
def narrow? (n : Int) : Option Int64 :=
  if -Int.pow 2 63 ≤ n ∧ n < Int.pow 2 63 then some (Int64.ofInt n) else none

/-- The sum. -/
def add? (a b : Int64) : Option Int64 :=
  narrow? (a.toInt + b.toInt)

/-- The difference. -/
def sub? (a b : Int64) : Option Int64 :=
  narrow? (a.toInt - b.toInt)

/-- The product. -/
def mul? (a b : Int64) : Option Int64 :=
  narrow? (a.toInt * b.toInt)

/-- The quotient, rounded toward zero. -/
def div? (a b : Int64) : Option Int64 :=
  narrow? (a.toInt.tdiv b.toInt)

/-- The remainder of the division that `div?` does, when that division has a
    result. -/
def rem? (a b : Int64) : Option Int64 :=
  (div? a b).map fun _ => Int64.ofInt (a.toInt.tmod b.toInt)

/-- The opposite. -/
def neg? (a : Int64) : Option Int64 :=
  narrow? (-a.toInt)

/-- The decimal equal to `n`, when all integers up to `n` are decimals. -/
def toBinary64? (n : Int64) : Option Binary64 :=
  if n.toInt.natAbs < Nat.pow 2 53 then some (.ofInt n.toInt) else none

/-- What fits is kept as it is. -/
theorem toInt_of_narrow? {n : Int} {a : Int64} (h : narrow? n = some a) : a.toInt = n := by
  unfold narrow? at h
  split at h
  · rename_i hn
    injection h with h
    subst h
    exact Int64.toInt_ofInt_of_le hn.1 hn.2
  · contradiction

/-- A 64-bit integer fits. -/
@[simp] theorem narrow?_toInt (a : Int64) : narrow? a.toInt = some a := by
  rw [narrow?, if_pos ⟨a.le_toInt, a.toInt_lt⟩, Int64.ofInt_toInt]

end Tudlo.Integer
