import Mathlib.Algebra.Order.Field.Rat
import Mathlib.Algebra.Order.Ring.Cast
import Mathlib.Data.Int.ConditionallyCompleteOrder
import Mathlib.Order.Interval.Set.Defs
import Mathlib.Order.Monotone.Odd
import Mathlib.Order.WithBot
import Tudlo.Proofs.Binary64.Magnitudes

/-!
# Exact values

What a number of the format is worth: a rational number, or one of the two infinities
(`Binary64.worth?`). The value that is not a number has no worth. An integer is
*representable* when it is what some number of the format is worth.

The order of the format is that of the places among the ranks of both signs. It is also
the order of the worths, because a worth is found at its place (`worthAt`) and these grow
along with the places.

* `worth?_ofInt`: an integer of a magnitude below `2 ^ 53` is representable, and the
  number nearest to it is worth just that;
* `compare?_compares`: numbers compare as they are worth.
-/

namespace Tudlo.Binary64

/-- The rational numbers, with an infinity on each side. -/
abbrev Extended := WithBot (WithTop ℚ)

/-- A rational number among the extended ones. -/
def rational (q : ℚ) : Extended :=
  ((q : WithTop ℚ) : WithBot (WithTop ℚ))

theorem rational_lt_rational {p q : ℚ} : rational p < rational q ↔ p < q :=
  WithBot.coe_lt_coe.trans WithTop.coe_lt_coe

/-- The worth of so many units. -/
def unitsWorth (n : Int) : ℚ :=
  n / one

/-- What a number is worth. -/
def worth? : Binary64 → Option Extended
  | .finite negative rank => some (rational (unitsWorth (signed negative (units rank))))
  | .infinite negative => some (if negative then ⊥ else ⊤)
  | .nan => none

/-- Some number of the format is worth the integer. -/
def Representable (n : Int) : Prop :=
  ∃ x : Binary64, x.worth? = some (rational n)

@[simp] theorem signed_false (magnitude : Nat) : signed false magnitude = magnitude :=
  rfl

@[simp] theorem signed_true (magnitude : Nat) : signed true magnitude = -magnitude :=
  rfl

/-! ### Integers -/

theorem one_eq : one = 2 ^ 1074 := by
  -- The power is not to be computed.
  unfold one
  generalize 1074 = e
  rfl

theorem one_pos : (0 : ℚ) < one :=
  Nat.cast_pos.2 (one_eq ▸ pow_pos two_pos 1074)

theorem unitsWorth_mul_one (n : Int) : unitsWorth (n * one) = n := by
  rw [unitsWorth, Int.cast_mul, Int.cast_natCast, mul_div_cancel_right₀ _ one_pos.ne']

theorem signed_natAbs (n : Int) (k : Nat) : signed (n < 0) (n.natAbs * k) = n * k := by
  by_cases h : n < 0
  · rw [decide_eq_true h, signed_true, Nat.cast_mul, Int.ofNat_natAbs_of_nonpos h.le, neg_mul,
      neg_neg]
  · rw [decide_eq_false h, signed_false, Nat.cast_mul, Int.natAbs_of_nonneg (not_lt.1 h)]

/-- When the magnitude of an integer is one of the format, the number nearest to the
    integer is worth just that. -/
theorem worth?_ofInt_of_units {n : Int} {rank : Nat} (hr : rank < infinityRank)
    (hu : units rank = n.natAbs * one) : (ofInt n).worth? = some (rational n) := by
  rw [ofInt, ofQuotient, ← hu, ofUnits_units _ hr, worth?, hu, signed_natAbs,
    unitsWorth_mul_one]

/-- So are all integers that are a count times a power of two. -/
theorem worth?_ofInt_of_count {n : Int} {count : Nat} (shift : Nat) (hc : count < 2 * binade)
    (hs : shift < 970) (hn : n.natAbs = count * 2 ^ shift) :
    (ofInt n).worth? = some (rational n) := by
  obtain ⟨rank, hr, hu⟩ := exists_units_eq (shift + 1074) hc
  refine worth?_ofInt_of_units (hr.trans_le ?_) ?_
  · exact Nat.mul_le_mul_right _ (by omega)
  · rw [hu, hn, pow_add, mul_assoc, one_eq]

/-- An integer of a magnitude below `2 ^ 53` is a count. -/
theorem worth?_ofInt {n : Int} (h : n.natAbs < Nat.pow 2 53) :
    (ofInt n).worth? = some (rational n) :=
  worth?_ofInt_of_count 0 h (by decide) (by rw [pow_zero, mul_one])

/-! ### The order -/

/-- The units at a place among the ranks of both signs. -/
def signedUnits (k : Int) : Int :=
  k.sign * units k.natAbs

theorem signedUnits_natCast (rank : Nat) : signedUnits rank = units rank := by
  rw [signedUnits, Int.natAbs_natCast]
  rcases Nat.eq_zero_or_pos rank with rfl | h
  · rw [units_zero, Nat.cast_zero, mul_zero]
  · rw [Int.sign_eq_one_of_pos (Int.natCast_pos.2 h), one_mul]

theorem signedUnits_neg (k : Int) : signedUnits (-k) = -signedUnits k := by
  rw [signedUnits, Int.sign_neg, Int.natAbs_neg, neg_mul, signedUnits]

theorem signedUnits_signed (negative : Bool) (rank : Nat) :
    signedUnits (signed negative rank) = signed negative (units rank) := by
  cases negative with
  | false => rw [signed_false, signedUnits_natCast, signed_false]
  | true => rw [signed_true, signedUnits_neg, signedUnits_natCast, signed_true]

theorem strictMono_signedUnits : StrictMono signedUnits := by
  refine strictMono_of_odd_strictMonoOn_nonneg signedUnits_neg ?_
  intro a ha b hb hab
  obtain ⟨m, rfl⟩ := Int.eq_ofNat_of_zero_le ha
  obtain ⟨n, rfl⟩ := Int.eq_ofNat_of_zero_le hb
  rw [signedUnits_natCast, signedUnits_natCast, Int.ofNat_lt]
  exact strictMono_units (Int.ofNat_lt.1 hab)

theorem infinityRank_pos : 0 < infinityRank := by
  decide

/-- What a number at a place among the ranks of both signs is worth. -/
def worthAt (k : Int) : Extended :=
  if k = -infinityRank then ⊥ else if k = infinityRank then ⊤
  else rational (unitsWorth (signedUnits k))

/-- The places of the format. -/
def places : Set Int :=
  Set.Icc (-infinityRank) infinityRank

theorem strictMonoOn_worthAt : StrictMonoOn worthAt places := by
  intro a ha b hb hab
  have hb' : b ≠ -infinityRank := (ha.1.trans_lt hab).ne'
  have ha' : a ≠ infinityRank := (hab.trans_le hb.2).ne
  rw [worthAt, worthAt, if_neg hb', if_neg ha']
  split
  · split
    · exact WithBot.bot_lt_coe ⊤
    · exact WithBot.bot_lt_coe _
  · split
    · exact WithBot.coe_lt_coe.2 (WithTop.coe_lt_top _)
    · refine rational_lt_rational.2 (div_lt_div_of_pos_right ?_ one_pos)
      exact Int.cast_lt.2 (strictMono_signedUnits hab)

/-- The place of a number is one of the format, and the worth is found there. -/
theorem exists_place {x : Binary64} {a : Extended} (h : x.worth? = some a) :
    ∃ k ∈ places, x.key? = some k ∧ worthAt k = a := by
  rcases x with ⟨negative, rank, hr⟩ | negative | _
  · -- A finite rank is below that of infinity, so neither infinity is at its place.
    have hlt : (rank : Int) < infinityRank := Int.ofNat_lt.2 hr
    have hle : signed negative rank ≤ rank ∧ -(rank : Int) ≤ signed negative rank := by
      cases negative <;> simp only [signed_false, signed_true] <;> omega
    refine ⟨signed negative rank, ⟨by omega, by omega⟩, rfl, ?_⟩
    rw [worthAt, if_neg (by omega), if_neg (by omega), signedUnits_signed]
    exact Option.some.inj h
  · have hpos : (0 : Int) < infinityRank := Int.ofNat_lt.2 infinityRank_pos
    obtain rfl := Option.some.inj h
    refine ⟨signed negative infinityRank, ?_, rfl, ?_⟩
    · cases negative <;> simp only [places, Set.mem_Icc, signed_false, signed_true] <;> omega
    · cases negative with
      | false => rw [worthAt, signed_false, if_neg (by omega), if_pos rfl, if_neg Bool.false_ne_true]
      | true => rw [worthAt, signed_true, if_pos rfl, if_pos rfl]
  · cases h

/-- Numbers compare as they are worth. -/
theorem compare?_compares {x y : Binary64} {a b : Extended} (hx : x.worth? = some a)
    (hy : y.worth? = some b) : ∃ o, x.compare? y = some o ∧ o.Compares a b := by
  obtain ⟨j, hj, hkx, rfl⟩ := exists_place hx
  obtain ⟨k, hk, hky, rfl⟩ := exists_place hy
  refine ⟨compare j k, by rw [compare?, hkx, hky], ?_⟩
  rw [strictMonoOn_worthAt.compares hj hk, ← cmp_eq_compare]
  exact cmp_compares j k

theorem compare?_of_nan {x y : Binary64} (h : x = .nan ∨ y = .nan) : x.compare? y = none := by
  rcases h with rfl | rfl
  · rfl
  · cases x <;> rfl

end Tudlo.Binary64
