import Mathlib.Algebra.Order.Ring.Nat
import Mathlib.Order.Monotone.Basic
import Tudlo.Binary64.Rounding

/-!
# Magnitudes

Each magnitude of the format is a *count* times a power of two, in units. The counts
below `2 * binade` are all there are, and those from `binade` on belong to one binade
only; smaller ones are used with the power zero, where the units are counted
themselves. So a rank is a shift and a count (`Normal`), and this is what both
directions are about:

* `units_normal`, `exists_normal`: from the shift and the count to the magnitude, and
  from any rank to its shift and count;
* `strictMono_units`: the magnitudes grow with the rank, because the next one is always
  one count further;
* `exists_units_eq`: a count times any power of two is a magnitude;
* `roundRank_units`: a magnitude is rounded to itself.
-/

namespace Tudlo.Binary64

variable {shift count : Nat}

theorem binade_pos : 0 < binade := by
  decide

/-! ### Shifts and counts -/

/-- The count belongs to the shift: it is below the end of a binade, and also above the
    start of one unless the shift is zero. -/
def Normal (shift count : Nat) : Prop :=
  count < 2 * binade ∧ (shift = 0 ∨ binade ≤ count)

/-- The shift of a rank is found again from the rank. -/
theorem Normal.shift_eq (h : Normal shift count) :
    (shift * binade + count) / binade - 1 = shift := by
  obtain ⟨hlt, hle⟩ := h
  rw [Nat.add_comm, Nat.add_mul_div_right _ _ binade_pos]
  have hdiv : count / binade < 2 := Nat.div_lt_of_lt_mul (by rwa [Nat.mul_comm])
  rcases hle with rfl | hle
  · omega
  · have hone : 1 ≤ count / binade := (Nat.one_le_div_iff binade_pos).2 hle
    omega

theorem units_normal (h : Normal shift count) :
    units (shift * binade + count) = count * 2 ^ shift := by
  rw [units, h.shift_eq, Nat.add_sub_cancel_left]
  rfl

/-- Every rank is a shift and a count. -/
theorem exists_normal (rank : Nat) :
    ∃ shift count, Normal shift count ∧ rank = shift * binade + count := by
  have hmod := Nat.mod_lt rank binade_pos
  have hrank := Nat.div_add_mod' rank binade
  by_cases h : rank < binade
  · exact ⟨0, rank, ⟨by omega, .inl rfl⟩, by omega⟩
  · have hone : 1 ≤ rank / binade := (Nat.one_le_div_iff binade_pos).2 (by omega)
    refine ⟨rank / binade - 1, binade + rank % binade, ⟨by omega, .inr (by omega)⟩, ?_⟩
    obtain ⟨q, hq⟩ : ∃ q, rank / binade = q + 1 := ⟨rank / binade - 1, by omega⟩
    rw [hq, Nat.succ_mul] at hrank
    rw [hq, Nat.add_sub_cancel]
    omega

/-! ### The order of the magnitudes -/

/-- The next magnitude is one count further, also when a new binade starts with it. -/
theorem units_succ (h : Normal shift count) :
    units (shift * binade + count + 1) = (count + 1) * 2 ^ shift := by
  by_cases hc : count + 1 < 2 * binade
  · have hn : Normal shift (count + 1) := ⟨hc, h.2.imp_right fun hle => by omega⟩
    rw [Nat.add_assoc, units_normal hn]
  · have hn : Normal (shift + 1) binade := ⟨by have := binade_pos; omega, .inr (Nat.le_refl _)⟩
    have hcount : count + 1 = 2 * binade := by have := h.1; omega
    rw [Nat.add_assoc, hcount, Nat.two_mul, ← Nat.add_assoc, ← Nat.succ_mul, units_normal hn,
      Nat.pow_succ, ← Nat.two_mul, Nat.mul_comm 2 binade, Nat.mul_assoc, Nat.mul_comm 2]

theorem strictMono_units : StrictMono units := by
  refine strictMono_nat_of_lt_succ fun rank => ?_
  obtain ⟨shift, count, h, rfl⟩ := exists_normal rank
  rw [units_normal h, units_succ h]
  exact Nat.mul_lt_mul_of_pos_right (Nat.lt_succ_self count) (Nat.two_pow_pos shift)

/-- A count times a power of two is a magnitude, and its rank is not beyond the binade
    that the power leads to. -/
theorem exists_units_eq (shift : Nat) (h : count < 2 * binade) :
    ∃ rank, rank < (shift + 2) * binade ∧ units rank = count * 2 ^ shift := by
  induction shift generalizing count with
  | zero =>
    refine ⟨0 * binade + count, ?_, units_normal ⟨h, .inl rfl⟩⟩
    rwa [Nat.zero_mul, Nat.zero_add, Nat.zero_add]
  | succ shift ih =>
    by_cases hc : binade ≤ count
    · refine ⟨(shift + 1) * binade + count, ?_, units_normal ⟨h, .inr hc⟩⟩
      rw [Nat.add_mul (shift + 1)]
      omega
    · -- A smaller count is doubled, which takes one from the power.
      have hd : 2 * count < 2 * binade := by omega
      obtain ⟨rank, hr, hu⟩ := ih hd
      refine ⟨rank, ?_, ?_⟩
      · rw [Nat.add_right_comm, Nat.succ_mul]
        omega
      · rw [hu, Nat.pow_succ, Nat.mul_comm 2 count, Nat.mul_assoc, Nat.mul_comm 2]

/-! ### Rounding magnitudes -/

/-- The shift of a magnitude is found again from the size of the magnitude. -/
theorem Normal.log2_sub_eq (h : Normal shift count) : (count * 2 ^ shift).log2 - 52 = shift := by
  obtain ⟨hlt, hle⟩ := h
  have hlt' : count < 2 ^ 53 := hlt
  have hend : (count * 2 ^ shift).log2 < 53 + shift ∨ count = 0 := by
    rcases Nat.eq_zero_or_pos count with hz | hpos
    · exact .inr hz
    · refine .inl ((Nat.log2_lt (Nat.mul_pos hpos (Nat.two_pow_pos shift)).ne').2 ?_)
      rw [Nat.pow_add]
      exact Nat.mul_lt_mul_of_pos_right hlt' (Nat.two_pow_pos shift)
  rcases hle with rfl | hle
  · rcases hend with hend | rfl
    · omega
    · rfl
  · have hpos : count ≠ 0 := by
      have := binade_pos
      omega
    have hstart : 52 + shift ≤ (count * 2 ^ shift).log2 := by
      refine (Nat.le_log2 (Nat.mul_ne_zero hpos (Nat.two_pow_pos shift).ne')).2 ?_
      rw [Nat.pow_add]
      exact Nat.mul_le_mul_right _ hle
    rcases hend with hend | hz
    · omega
    · exact absurd hz hpos

/-- A magnitude is rounded to itself. -/
theorem roundRank_units (rank : Nat) : roundRank (units rank) 1 = rank := by
  obtain ⟨shift, count, h, rfl⟩ := exists_normal rank
  rw [units_normal h, roundRank, Nat.div_one, h.log2_sub_eq, Nat.one_mul]
  exact congrArg (shift * binade + ·) (nearest_mul count (Nat.two_pow_pos shift))

/-- The value of a magnitude has its rank. -/
theorem ofUnits_units (negative : Bool) {rank : Nat} (h : rank < infinityRank) :
    ofUnits negative (units rank) 1 = .finite negative ⟨rank, h⟩ := by
  rw [ofUnits, roundRank_units, ofRank, dif_pos h]

end Tudlo.Binary64
