import Mathlib.Data.Option.Basic
import Tudlo.Operator.Apply

/-!
# Exact arithmetic and what fits

The arithmetic operators compute with 64-bit integers, but what they are meant to
compute is said in terms of all integers: `BinaryOp.exact` and `UnaryOp.exact`, with
division toward zero and the remainder that goes with it. An operator gives the exact
result when this *fits*, that is, when it is a 64-bit integer again (`Integer.Fits`).

There is one exception. A remainder is computed together with its quotient, and the
least integer divided by minus one has a quotient that does not fit. So this one
remainder is refused, although it is zero (`BinaryOp.LacksQuotient`).

* `Integer.fits_tdiv_iff`, `Integer.fits_tmod`: quotients fit but for that one case,
  and remainders always do;
* `BinaryOp.onIntegers_of_fits`, `BinaryOp.onIntegers_of_not_fits`: what an operator
  makes of two integers;
* `BinaryOp.arithmetic_overflows_iff`: when there is an overflow.
-/

namespace Tudlo

namespace Integer

/-! ### What fits -/

/-- The integer is a 64-bit integer. -/
def Fits (n : Int) : Prop :=
  -Int.pow 2 63 ≤ n ∧ n < Int.pow 2 63

instance (n : Int) : Decidable (Fits n) :=
  inferInstanceAs (Decidable (_ ∧ _))

theorem narrow?_of_fits {n : Int} (h : Fits n) : narrow? n = some (Int64.ofInt n) :=
  if_pos h

theorem narrow?_of_not_fits {n : Int} (h : ¬ Fits n) : narrow? n = none :=
  if_neg h

theorem fits_toInt (a : Int64) : Fits a.toInt :=
  ⟨a.le_toInt, a.toInt_lt⟩

theorem toInt_eq_zero_iff {a : Int64} : a.toInt = 0 ↔ a = 0 := by
  rw [← Int64.toInt_inj, Int64.toInt_zero]

theorem toInt_ofInt_of_fits {n : Int} (h : Fits n) : (Int64.ofInt n).toInt = n :=
  toInt_of_narrow? (narrow?_of_fits h)

/-- A magnitude that is below that of a 64-bit integer fits. -/
theorem fits_of_natAbs_lt {n : Int} (h : n.natAbs < Nat.pow 2 63) : Fits n := by
  have hp : Int.pow 2 63 = ((Nat.pow 2 63 : Nat) : Int) := rfl
  rw [Fits, hp]
  omega

theorem natAbs_le_of_fits {n : Int} (h : Fits n) : n.natAbs ≤ Nat.pow 2 63 := by
  have hp : Int.pow 2 63 = ((Nat.pow 2 63 : Nat) : Int) := rfl
  rw [Fits, hp] at h
  omega

/-! ### Quotients and remainders -/

/-- A quotient fits, unless it is that of the least integer by minus one. -/
theorem fits_tdiv_iff {x y : Int} (hx : Fits x) (hy : y ≠ 0) :
    Fits (x.tdiv y) ↔ ¬ (x = -Int.pow 2 63 ∧ y = -1) := by
  constructor
  · rintro h ⟨rfl, rfl⟩
    exact absurd h (by decide)
  · intro h
    by_cases hn : x.natAbs < Nat.pow 2 63
    · -- The quotient is not larger than the dividend.
      exact fits_of_natAbs_lt (Nat.lt_of_le_of_lt (Int.natAbs_tdiv_le_natAbs x y) hn)
    · -- The dividend is the least integer, so the quotient is smaller, or itself.
      have hp : Int.pow 2 63 = ((Nat.pow 2 63 : Nat) : Int) := rfl
      have hm : x = -Int.pow 2 63 := by
        have hl := natAbs_le_of_fits hx
        rw [Fits, hp] at hx
        omega
      by_cases hone : y = 1
      · rw [hone, Int.tdiv_one]
        exact hx
      · have htwo : 2 ≤ y.natAbs := by
          have hne : y ≠ -1 := fun hy => h ⟨hm, hy⟩
          omega
        refine fits_of_natAbs_lt ?_
        rw [Int.natAbs_tdiv]
        refine Nat.lt_of_le_of_lt (Nat.div_le_div_left htwo (by decide)) ?_
        have hl := natAbs_le_of_fits hx
        have hpos : 0 < Nat.pow 2 63 := by decide
        omega

/-- A remainder always fits. -/
theorem fits_tmod {x y : Int} (hy : Fits y) (hne : y ≠ 0) : Fits (x.tmod y) := by
  refine fits_of_natAbs_lt ?_
  rw [Int.natAbs_tmod]
  exact Nat.lt_of_lt_of_le (Nat.mod_lt _ (Int.natAbs_pos.2 hne)) (natAbs_le_of_fits hy)

/-- The remainder is what the quotient leaves, and smaller than the divisor. -/
theorem tmod_spec {x y : Int} (hne : y ≠ 0) :
    x = y * x.tdiv y + x.tmod y ∧ (x.tmod y).natAbs < y.natAbs := by
  refine ⟨(Int.mul_tdiv_add_tmod x y).symm, ?_⟩
  rw [Int.natAbs_tmod]
  exact Nat.mod_lt _ (Int.natAbs_pos.2 hne)

end Integer

/-! ### Exact results -/

/-- The exact result of an operator with one operand. Only signs have one. -/
def UnaryOp.exact (op : UnaryOp) (x : Int) : Int :=
  match op with
  | .negate => -x
  | .plus => x
  | .not => 0

namespace BinaryOp

variable {op : BinaryOp} {a b : Int64}

/-- The exact result of an operator with two operands. Only arithmetic has one. -/
def exact (op : BinaryOp) (x y : Int) : Int :=
  match op with
  | .add => x + y
  | .sub => x - y
  | .mul => x * y
  | .div => x.tdiv y
  | .rem => x.tmod y
  | _ => 0

/-- Whether the operator has a divisor. -/
def divides (op : BinaryOp) : Bool :=
  op == .div || op == .rem

/-- The operator is asked for a remainder whose quotient does not fit. -/
def LacksQuotient (op : BinaryOp) (x y : Int) : Prop :=
  op = .rem ∧ x = -Int.pow 2 63 ∧ y = -1

instance (op : BinaryOp) (x y : Int) : Decidable (op.LacksQuotient x y) :=
  inferInstanceAs (Decidable (_ ∧ _))

/-- The exact result fits, and if it is a remainder, so does its quotient. -/
def ResultFits (op : BinaryOp) (x y : Int) : Prop :=
  Integer.Fits (op.exact x y) ∧ ¬ op.LacksQuotient x y

instance (op : BinaryOp) (x y : Int) : Decidable (op.ResultFits x y) :=
  inferInstanceAs (Decidable (_ ∧ _))

/-! ### Arithmetic on integers -/

theorem onIntegers_of_zero (h : op.divides = true) :
    op.onIntegers a 0 = .error .divisionByZero := by
  cases op with
  | div => rfl
  | rem => rfl
  | _ => cases h

/-- Without the quotient there is no remainder. -/
theorem rem?_of_lacksQuotient (h : BinaryOp.rem.LacksQuotient a.toInt b.toInt) :
    Integer.rem? a b = none := by
  obtain ⟨-, ha, hb⟩ := h
  rw [Integer.rem?, Integer.div?, ha, hb]
  rfl

theorem rem?_of_not_lacksQuotient (hb : b ≠ 0)
    (h : ¬ BinaryOp.rem.LacksQuotient a.toInt b.toInt) :
    Integer.rem? a b = some (Int64.ofInt (a.toInt.tmod b.toInt)) := by
  have hq : Integer.Fits (a.toInt.tdiv b.toInt) :=
    (Integer.fits_tdiv_iff (Integer.fits_toInt a) (mt Integer.toInt_eq_zero_iff.1 hb)).2
      fun hx => h ⟨rfl, hx⟩
  rw [Integer.rem?, Integer.div?, Integer.narrow?_of_fits hq, Option.map_some]

/-- A result that fits is given. -/
theorem onIntegers_of_fits (hop : op.family = .arithmetic) (hb : op.divides = true → b ≠ 0)
    (h : op.ResultFits a.toInt b.toInt) :
    op.onIntegers a b = .ok (.integer (Int64.ofInt (op.exact a.toInt b.toInt))) := by
  obtain ⟨hf, hq⟩ := h
  have hn := Integer.narrow?_of_fits hf
  cases op with
  | add => exact congrArg integerResult hn
  | sub => exact congrArg integerResult hn
  | mul => exact congrArg integerResult hn
  | div => exact (if_neg (hb rfl)).trans (congrArg integerResult hn)
  | rem =>
    have hr := rem?_of_not_lacksQuotient (hb rfl) hq
    exact (if_neg (hb rfl)).trans (congrArg integerResult hr)
  | _ => cases hop

/-- Any other result is an overflow. -/
theorem onIntegers_of_not_fits (hop : op.family = .arithmetic) (hb : op.divides = true → b ≠ 0)
    (h : ¬ op.ResultFits a.toInt b.toInt) : op.onIntegers a b = .error .overflow := by
  -- Only a remainder can be without its quotient, so the others do not fit themselves.
  have hn (hop : op ≠ .rem) : Integer.narrow? (op.exact a.toInt b.toInt) = none :=
    Integer.narrow?_of_not_fits fun hf => h ⟨hf, fun hq => hop hq.1⟩
  cases op with
  | add => exact congrArg integerResult (hn (by decide))
  | sub => exact congrArg integerResult (hn (by decide))
  | mul => exact congrArg integerResult (hn (by decide))
  | div => exact (if_neg (hb rfl)).trans (congrArg integerResult (hn (by decide)))
  | rem =>
    have hf : Integer.Fits (BinaryOp.rem.exact a.toInt b.toInt) :=
      Integer.fits_tmod (Integer.fits_toInt b) (mt Integer.toInt_eq_zero_iff.1 (hb rfl))
    have hq : BinaryOp.rem.LacksQuotient a.toInt b.toInt := by
      by_contra hq
      exact h ⟨hf, hq⟩
    exact (if_neg (hb rfl)).trans (congrArg integerResult (rem?_of_lacksQuotient hq))
  | _ => cases hop

/-- There is an overflow exactly when the exact result does not fit, or is the remainder
    of the least integer by minus one. In all other cases the exact result is given, and
    for a remainder this is what is left of the dividend by the quotient toward zero, and
    smaller than the divisor. -/
theorem arithmetic_overflows_iff (op : BinaryOp) (a b : Int64) (hop : op.family = .arithmetic)
    (hb : op.divides = true → b ≠ 0) :
    (op.arithmetic (.integer a) (.integer b) = .error .overflow ↔
      ¬ Integer.Fits (op.exact a.toInt b.toInt) ∨
        (op = .rem ∧ a.toInt = -Int.pow 2 63 ∧ b.toInt = -1)) ∧
    (op.arithmetic (.integer a) (.integer b) ≠ .error .overflow →
      ∃ n : Int64, op.arithmetic (.integer a) (.integer b) = .ok (.integer n) ∧
        n.toInt = op.exact a.toInt b.toInt) ∧
    (op = .rem → ¬ (a.toInt = -Int.pow 2 63 ∧ b.toInt = -1) →
      ∃ r : Int64, op.arithmetic (.integer a) (.integer b) = .ok (.integer r) ∧
        a.toInt = b.toInt * a.toInt.tdiv b.toInt + r.toInt ∧
        r.toInt.natAbs < b.toInt.natAbs) := by
  have harith : op.arithmetic (.integer a) (.integer b) = op.onIntegers a b := rfl
  rw [harith]
  by_cases h : op.ResultFits a.toInt b.toInt
  · have hn := Integer.toInt_ofInt_of_fits h.1
    have hok := onIntegers_of_fits hop hb h
    refine ⟨⟨fun ho => ?_, ?_⟩, fun _ => ⟨_, hok, hn⟩, ?_⟩
    · rw [hok] at ho
      cases ho
    · rintro (hf | hq)
      · exact absurd h.1 hf
      · exact absurd hq h.2
    · rintro rfl -
      refine ⟨_, hok, ?_⟩
      rw [hn]
      exact Integer.tmod_spec (mt Integer.toInt_eq_zero_iff.1 (hb rfl))
  · have ho := onIntegers_of_not_fits hop hb h
    rw [ResultFits, not_and_or, not_not] at h
    refine ⟨⟨fun _ => h, fun _ => ho⟩, fun hne => absurd ho hne, ?_⟩
    -- A remainder fits, so it is the one without its quotient.
    rintro rfl hx
    have hz : b.toInt ≠ 0 := mt Integer.toInt_eq_zero_iff.1 (hb rfl)
    rcases h with hf | hq
    · exact absurd (Integer.fits_tmod (Integer.fits_toInt b) hz) hf
    · exact absurd hq.2 hx

/-- The least integer leaves a remainder when divided by three. -/
theorem arithmetic_overflows_iff_least :
    BinaryOp.rem.family = .arithmetic ∧ (BinaryOp.rem.divides = true → (3 : Int64) ≠ 0) ∧
    ∃ r : Int64, BinaryOp.rem.arithmetic (.integer Int64.minValue) (.integer 3) = .ok (.integer r) ∧
      Int64.minValue.toInt = (3 : Int64).toInt * Int64.minValue.toInt.tdiv (3 : Int64).toInt +
        r.toInt ∧
      r.toInt.natAbs < (3 : Int64).toInt.natAbs :=
  have h := arithmetic_overflows_iff .rem Int64.minValue 3 rfl (by decide)
  ⟨rfl, by decide, h.2.2 rfl (by decide)⟩

/-- The least integer has no remainder by minus one, although this would be zero. -/
theorem rem_overflows_at_zero :
    BinaryOp.rem.arithmetic (.integer Int64.minValue) (.integer (-1)) = .error .overflow ∧
      BinaryOp.rem.exact Int64.minValue.toInt (-1 : Int64).toInt = 0 ∧ Integer.Fits 0 :=
  ⟨rfl, rfl, by decide⟩

end BinaryOp

end Tudlo
