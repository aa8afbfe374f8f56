import Tudlo.Proofs.Decimal.Reading

/-!
# The fewest places

The decimal that is searched for has the fewest places of all that are read back as a given
magnitude. Of those with a given number of places only two have to be tried, since what lies
between the magnitude and a decimal that is read back is read back as well.

* `isNearest_shortest`: the decimal is read back;
* `shortest_le`: no decimal with fewer places is;
* `whole_of_isNearest`: only whole magnitudes are nearest to a whole number, so that any other
  magnitude has at least one place (`shortest_pos`).
-/

namespace Tudlo.Binary64

variable {rank digits places : Nat}

/-! ### Decimals with so many places -/

/-- The decimal with the given digits and places, as a number. -/
def scaled (digits places : Nat) : ℚ :=
  digits / 10 ^ places

theorem scaled_nonneg (digits places : Nat) : 0 ≤ scaled digits places := by
  rw [scaled]
  positivity

theorem scaled_le_scaled {a b : Nat} (h : a ≤ b) (places : Nat) :
    scaled a places ≤ scaled b places :=
  div_le_div_of_nonneg_right (Nat.cast_le.2 h) (by positivity)

theorem scaled_zero (digits : Nat) : scaled digits 0 = digits := by
  rw [scaled, pow_zero, div_one]

/-- Zeros at the end are places that can be left out. -/
theorem scaled_mul_pow (digits places i : Nat) :
    scaled (digits * 10 ^ i) (places + i) = scaled digits places := by
  rw [scaled, scaled, Nat.cast_mul, Nat.cast_pow, pow_add]
  exact mul_div_mul_right _ _ (by positivity)

theorem readsBack_iff :
    readsBack rank digits places = true ↔ IsNearest (scaled digits places) rank := by
  have h := isNearest_roundRank (digits * one) (Nat.pow_pos (by decide : 0 < 10) : 0 < 10 ^ places)
  rw [Nat.cast_mul, mul_div_right_comm, mul_div_cancel_right₀ _ one_pos.ne', Nat.cast_pow] at h
  rw [readsBack, beq_iff_eq]
  exact ⟨fun he => he ▸ h, fun hn => h.unique hn⟩

theorem scaled_le_magnitude (rank places : Nat) :
    scaled (below rank places) places ≤ magnitude rank := by
  have hle : below rank places * one ≤ units rank * 10 ^ places := Nat.div_mul_le_self _ _
  rw [scaled, magnitude_eq, div_le_div_iff₀ (by positivity) one_pos]
  exact_mod_cast hle

theorem magnitude_le_scaled (rank places : Nat) :
    magnitude rank ≤ scaled (below rank places + 1) places := by
  have hle : units rank * 10 ^ places ≤ (below rank places + 1) * one := by
    rw [Nat.succ_mul]
    exact (Nat.lt_div_mul_add (Nat.cast_pos.1 one_pos)).le
  rw [scaled, magnitude_eq, div_le_div_iff₀ one_pos (by positivity)]
  exact_mod_cast hle

/-- What is found is one of the two decimals that surround the magnitude, and is read back. -/
theorem isNearest_of_withPlaces? (h : withPlaces? rank places = some digits) :
    IsNearest (scaled digits places) rank := by
  rw [← readsBack_iff]
  simp only [withPlaces?] at h
  split at h
  · rename_i hb
    cases h
    exact (Bool.and_eq_true_iff.1 hb).1
  · split at h
    · rename_i ha
      cases h
      exact ha
    · cases h

/-- When nothing is found, neither of the two is read back. -/
theorem readsBack_of_withPlaces?_eq_none (h : withPlaces? rank places = none) :
    readsBack rank (below rank places) places = false ∧
      readsBack rank (below rank places + 1) places = false := by
  simp only [withPlaces?] at h
  split at h
  · cases h
  · rename_i hb
    split at h
    · cases h
    · rename_i ha
      rw [Bool.not_eq_true] at ha
      rw [ha, Bool.not_false, Bool.or_true, Bool.and_true, Bool.not_eq_true] at hb
      exact ⟨hb, ha⟩

/-- If any of the decimals is read back, so is one of the two. -/
theorem not_isNearest_of_withPlaces? (h : withPlaces? rank places = none) (digits : Nat) :
    ¬ IsNearest (scaled digits places) rank := by
  intro hd
  have hm := isNearest_magnitude rank
  obtain ⟨hb, ha⟩ := readsBack_of_withPlaces?_eq_none h
  rcases Nat.lt_or_ge (below rank places) digits with hlt | hge
  · have hn := hm.between hd (magnitude_le_scaled rank places) (scaled_le_scaled hlt places)
      (scaled_nonneg _ _)
    rw [readsBack_iff.2 hn] at ha
    cases ha
  · have hn := hd.between hm (scaled_le_scaled hge places) (scaled_le_magnitude rank places)
      (scaled_nonneg _ _)
    rw [readsBack_iff.2 hn] at hb
    cases hb

/-! ### The search -/

/-- With as many places as a unit has, every magnitude is written exactly. -/
theorem scaled_eq_magnitude (h : 1074 ≤ places) :
    scaled (below rank places) places = magnitude rank := by
  have hd : one ∣ 10 ^ places := by
    rw [one_eq]
    exact (pow_dvd_pow 2 h).trans (pow_dvd_pow_of_dvd (by decide) places)
  have hb : below rank places * one = units rank * 10 ^ places :=
    Nat.div_mul_cancel (hd.mul_left (units rank))
  rw [scaled, magnitude_eq, div_eq_div_iff (by positivity) one_pos.ne']
  exact_mod_cast hb

/-- A search finds a candidate, unless there is none all the way to the end, and passes over
    no number that has one. -/
theorem firstFrom_spec {candidate? : Nat → Option Nat} {final : Nat → Nat} (budget places : Nat) :
    (candidate? (firstFrom candidate? final budget places).2 =
        some (firstFrom candidate? final budget places).1 ∨
      (firstFrom candidate? final budget places).2 = places + budget ∧
        (firstFrom candidate? final budget places).1 = final (places + budget)) ∧
    ∀ p, places ≤ p → p < (firstFrom candidate? final budget places).2 → candidate? p = none := by
  induction budget generalizing places with
  | zero => exact ⟨.inr ⟨rfl, rfl⟩, fun p hp hlt => absurd hp (Nat.not_le.2 hlt)⟩
  | succ budget ih =>
    rw [firstFrom]
    cases hc : candidate? places with
    | some digits => exact ⟨.inl hc, fun p hp hlt => absurd hp (Nat.not_le.2 hlt)⟩
    | none =>
      obtain ⟨hfound, hleast⟩ := ih (places + 1)
      rw [Nat.add_right_comm] at hfound
      refine ⟨hfound, fun p hp hlt => ?_⟩
      rcases Nat.lt_or_eq_of_le hp with hp | rfl
      · exact hleast p hp hlt
      · exact hc

theorem isNearest_shortest (rank : Nat) :
    IsNearest (scaled (shortest rank).1 (shortest rank).2) rank := by
  rcases (firstFrom_spec 1074 0).1 with hc | ⟨hp, hd⟩
  · exact isNearest_of_withPlaces? hc
  · rw [shortest, hp, hd, scaled_eq_magnitude (Nat.zero_add 1074).ge]
    exact isNearest_magnitude rank

/-- No decimal with fewer places is read back. -/
theorem shortest_le (h : IsNearest (scaled digits places) rank) : (shortest rank).2 ≤ places := by
  by_contra hlt
  have hc := (firstFrom_spec 1074 0).2 places (Nat.zero_le _) (Nat.not_le.1 hlt)
  exact not_isNearest_of_withPlaces? hc digits h

/-! ### Whole magnitudes -/

/-- From `2 ^ 52` on all magnitudes are whole. -/
theorem whole_of_le (h : 1075 * binade ≤ rank) : one ∣ units rank := by
  obtain ⟨shift, count, hn, rfl⟩ := exists_normal rank
  have hs : 1074 ≤ shift := by
    by_contra hlt
    have hle : shift * binade ≤ 1073 * binade := Nat.mul_le_mul_right _ (by omega)
    have := hn.1
    omega
  rw [units_normal hn, one_eq]
  exact (pow_dvd_pow 2 hs).mul_left count

/-- Below, every whole number is a magnitude, so that only whole magnitudes are nearest to a
    whole number. -/
theorem whole_of_isNearest {n : Nat} (h : IsNearest n rank) : one ∣ units rank := by
  rcases Nat.lt_or_ge n (2 ^ 52) with hlt | hge
  · have hc : n < 2 * binade := by
      have := binade_eq
      omega
    obtain ⟨r, -, hu⟩ := exists_units_eq 1074 hc
    rw [← one_eq] at hu
    have hr := isNearest_magnitude r
    rw [magnitude_of_units hu] at hr
    rw [h.unique hr, hu]
    exact Nat.dvd_mul_left _ _
  · refine whole_of_le ((isNearest_magnitude (1075 * binade)).mono h ?_)
    rw [magnitude_start 52]
    exact_mod_cast hge

/-- A magnitude that is not whole has at least one place. -/
theorem shortest_pos (h : ¬ one ∣ units rank) : 0 < (shortest rank).2 := by
  refine Nat.pos_of_ne_zero fun h0 => h (whole_of_isNearest (n := (shortest rank).1) ?_)
  have hn := isNearest_shortest rank
  rwa [h0, scaled, pow_zero, div_one] at hn

end Tudlo.Binary64
