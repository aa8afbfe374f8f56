import Mathlib.Algebra.Order.Field.Power
import Tudlo.Proofs.Binary64.Nearest
import Tudlo.Proofs.Decimal.Digits

/-!
# What numerals are read as

A numeral is worth its digits times a power of ten (`Numeral.worth`), and it is read as the
number of the format nearest to that (`Numeral.exists_isNearest_toBinary64`). Numerals that
are far too large or too small are not computed. This makes no difference, as such numerals
are beyond the largest magnitude, or nearer to zero than to the least one.

* `Numeral.toBinary64_eq_finite_iff`: when a numeral is read as a given finite number.
-/

namespace Tudlo.Numeral

open Binary64

variable {n : Numeral}

/-- What the numeral is worth, apart from its sign. -/
def worth (n : Numeral) : ℚ :=
  n.digits * 10 ^ n.exponent

theorem worth_nonneg (n : Numeral) : 0 ≤ n.worth := by
  rw [worth]
  positivity

theorem worth_of_digits_eq_zero (h : n.digits = 0) : n.worth = 0 := by
  rw [worth, h, Nat.cast_zero, zero_mul]

/-! ### The first digit -/

theorem worth_lt_reach (n : Numeral) : n.worth < 10 ^ n.reach := by
  have hd : (n.digits : ℚ) < 10 ^ (Nat.toDigits 10 n.digits).length := by
    exact_mod_cast lt_pow_length n.digits
  rw [worth, reach, add_comm, zpow_add₀ (by norm_num), zpow_natCast]
  exact mul_lt_mul_of_pos_right hd (by positivity)

theorem reach_le_worth (h : n.digits ≠ 0) : (10 : ℚ) ^ (n.reach - 1) ≤ n.worth := by
  obtain ⟨k, hk⟩ : ∃ k, (Nat.toDigits 10 n.digits).length = k + 1 :=
    Nat.exists_eq_succ_of_ne_zero Nat.length_toDigits_pos.ne'
  have hd : (10 : ℚ) ^ k ≤ n.digits := by
    exact_mod_cast pow_length_le h (by omega)
  have he : n.reach - 1 = (k : Int) + n.exponent := by
    rw [reach, hk]
    omega
  rw [worth, he, zpow_add₀ (by norm_num), zpow_natCast]
  exact mul_le_mul_of_nonneg_right hd (by positivity)

end Tudlo.Numeral

namespace Tudlo.Binary64

/-! ### Beyond the format -/

/-- What is less than half of the least magnitude is rounded to zero. -/
theorem isNearest_zero {x : ℚ} (h0 : 0 ≤ x) (h : x < magnitude 1 / 2) : IsNearest x 0 := by
  refine ⟨fun other => ?_, fun _ _ _ => rfl⟩
  rcases Nat.eq_zero_or_pos other with rfl | hpos
  · exact le_rfl
  · have hle := strictMono_magnitude.monotone (Nat.succ_le_of_lt hpos)
    rw [magnitude_zero, sub_zero, abs_of_nonneg h0, abs_sub_comm, abs_of_nonneg (by linarith)]
    linarith

theorem magnitude_one : magnitude 1 = 1 / 2 ^ 1074 := by
  have hu : units 1 = 1 := by decide
  rw [magnitude_eq, hu, one_eq, Nat.cast_one, Nat.cast_pow, Nat.cast_two]

theorem magnitude_infinityRank : magnitude infinityRank = 2 ^ 1024 :=
  magnitude_start 1024

theorem two_pow_le_ten_pow : (2 : ℚ) ^ 1200 ≤ 10 ^ 400 := by
  calc (2 : ℚ) ^ 1200 = (2 ^ 3) ^ 400 := by rw [← pow_mul]
    _ ≤ 10 ^ 400 := pow_le_pow_left₀ (by norm_num) (by norm_num) 400

/-- From `10 ^ 400` on all numbers are rounded to infinity. -/
theorem infinityRank_le {x : ℚ} {rank : Nat} (hx : 10 ^ 400 ≤ x) (h : IsNearest x rank) :
    infinityRank ≤ rank := by
  refine (isNearest_magnitude infinityRank).mono h ?_
  calc magnitude infinityRank = 2 ^ 1024 := magnitude_infinityRank
    _ ≤ 2 ^ 1200 := pow_le_pow_right₀ (by norm_num) (by norm_num)
    _ ≤ 10 ^ 400 := two_pow_le_ten_pow
    _ ≤ x := hx

/-- Below `10 ^ -400` all numbers are rounded to zero. -/
theorem isNearest_zero_of_lt {x : ℚ} (h0 : 0 ≤ x) (h : x < (10 ^ 400)⁻¹) : IsNearest x 0 := by
  refine isNearest_zero h0 (h.trans_le ?_)
  calc ((10 : ℚ) ^ 400)⁻¹ ≤ (2 ^ 1200)⁻¹ := inv_anti₀ (by positivity) two_pow_le_ten_pow
    _ ≤ (2 ^ 1075)⁻¹ :=
        inv_anti₀ (by positivity) (pow_le_pow_right₀ (by norm_num) (by norm_num))
    _ = magnitude 1 / 2 := by rw [magnitude_one, pow_succ, mul_inv, div_eq_mul_inv, one_div]

theorem ofRank_of_le {rank : Nat} (negative : Bool) (h : infinityRank ≤ rank) :
    ofRank negative rank = .infinite negative :=
  dif_neg (Nat.not_lt.2 h)

end Tudlo.Binary64

namespace Tudlo.Numeral

open Binary64

variable {n : Numeral}

/-! ### Reading -/

theorem toBinary64_of_small (h : n.digits = 0 ∨ n.reach < -400) :
    n.toBinary64 = .zero n.negative :=
  if_pos h

theorem toBinary64_of_large (h : ¬ (n.digits = 0 ∨ n.reach < -400)) (hr : 400 < n.reach) :
    n.toBinary64 = .infinite n.negative := by
  rw [toBinary64, if_neg h, if_pos hr]

theorem isNearest_of_small (h : n.digits = 0 ∨ n.reach < -400) : IsNearest n.worth 0 := by
  refine isNearest_zero_of_lt n.worth_nonneg ?_
  rcases h with h | h
  · rw [worth_of_digits_eq_zero h]
    positivity
  · calc n.worth < 10 ^ n.reach := n.worth_lt_reach
      _ ≤ 10 ^ (-400 : Int) := zpow_le_zpow_right₀ (by norm_num) h.le
      _ = (10 ^ 400)⁻¹ := zpow_neg 10 400

/-- A numeral that is neither far too large nor far too small is rounded. -/
theorem exists_isNearest_of_moderate (h : ¬ (n.digits = 0 ∨ n.reach < -400))
    (hr : ¬ 400 < n.reach) :
    ∃ rank, IsNearest n.worth rank ∧ n.toBinary64 = .ofRank n.negative rank := by
  have hq {num den : Nat} (hd : 0 < den) (hw : n.worth = num / den) :
      IsNearest n.worth (roundRank (num * one) den) := by
    have hi := isNearest_roundRank (num * one) hd
    rwa [Nat.cast_mul, mul_div_right_comm, mul_div_cancel_right₀ _ one_pos.ne', ← hw] at hi
  rw [toBinary64, if_neg h, if_neg hr]
  cases he : n.exponent with
  | ofNat e =>
    refine ⟨_, hq Nat.one_pos ?_, rfl⟩
    rw [worth, he, Nat.cast_one, div_one, Nat.cast_mul]
    exact congrArg (_ * ·) (Nat.cast_pow 10 e).symm
  | negSucc e =>
    refine ⟨_, hq (Nat.pow_pos (by decide)) ?_, rfl⟩
    rw [worth, he, zpow_negSucc, ← div_eq_mul_inv]
    exact congrArg (_ / ·) (Nat.cast_pow 10 (e + 1)).symm

/-- A numeral is read as the number nearest to it. -/
theorem exists_isNearest_toBinary64 (n : Numeral) :
    ∃ rank, IsNearest n.worth rank ∧ n.toBinary64 = .ofRank n.negative rank := by
  by_cases h : n.digits = 0 ∨ n.reach < -400
  · exact ⟨0, isNearest_of_small h, toBinary64_of_small h⟩
  · by_cases hr : 400 < n.reach
    · obtain ⟨rank, hn⟩ := exists_isNearest n.worth_nonneg
      refine ⟨rank, hn, ?_⟩
      have hle : (10 : ℚ) ^ 400 ≤ n.worth := by
        calc (10 : ℚ) ^ 400 = 10 ^ (400 : Int) := (zpow_natCast 10 400).symm
          _ ≤ 10 ^ (n.reach - 1) := zpow_le_zpow_right₀ (by norm_num) (by omega)
          _ ≤ n.worth := reach_le_worth (not_or.1 h).1
      rw [toBinary64_of_large h hr, ofRank_of_le _ (infinityRank_le hle hn)]
    · exact exists_isNearest_of_moderate h hr

/-- A numeral is read as a finite number when it has its sign and is nearest to its
    magnitude. -/
theorem toBinary64_eq_finite_iff {negative : Bool} {rank : Fin infinityRank} :
    n.toBinary64 = .finite negative rank ↔ n.negative = negative ∧ IsNearest n.worth rank := by
  obtain ⟨r, hr, he⟩ := n.exists_isNearest_toBinary64
  rw [he]
  constructor
  · intro hf
    rw [ofRank] at hf
    split at hf
    · cases hf
      exact ⟨rfl, hr⟩
    · cases hf
  · rintro ⟨rfl, hn⟩
    rw [hr.unique hn, ofRank_val]

end Tudlo.Numeral
