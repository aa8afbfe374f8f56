import Mathlib.Data.Nat.Cast.Order.Field
import Mathlib.Tactic.Linarith
import Mathlib.Tactic.Ring
import Tudlo.Proofs.Binary64.Values

/-!
# The nearest magnitude

Rounding gives the magnitude of the format that is nearest to a number, and of two that are
equally near the one of even rank (`IsNearest`). There is one such magnitude for every number
that is not negative, and it grows with the number. So the numbers that are rounded to the
same magnitude have all numbers between them in their company.

* `isNearest_roundRank`: rounding gives the nearest magnitude;
* `IsNearest.mono`, `IsNearest.unique`: it grows with the number, which determines it;
* `IsNearest.between`: what lies between two numbers of the same nearest magnitude.
-/

namespace Tudlo.Binary64

/-! ### The nearest natural number -/

/-- The natural number is at most one half away from the number, and half away only if it is
    even. -/
structure IsNearestNat (x : ℚ) (n : Nat) : Prop where
  lower : (n : ℚ) - 1 / 2 ≤ x
  upper : x ≤ n + 1 / 2
  even : x = n - 1 / 2 ∨ x = n + 1 / 2 → n % 2 = 0

theorem isNearestNat_nearest (num : Nat) {den : Nat} (h : 0 < den) :
    IsNearestNat (num / den) (nearest num den) := by
  have hd : (0 : ℚ) < den := Nat.cast_pos.2 h
  -- The quotient is its whole part and a fraction, which is compared with one half.
  obtain ⟨t, ht⟩ : ∃ t : ℚ, t = (num % den : Nat) / den := ⟨_, rfl⟩
  have hx : (num : ℚ) / den = (num / den : Nat) + t := by
    rw [ht, div_eq_iff hd.ne', add_mul, div_mul_cancel₀ _ hd.ne', ← Nat.cast_mul, ← Nat.cast_add,
      Nat.div_add_mod']
  have ht0 : 0 ≤ t := by
    rw [ht]
    positivity
  have ht1 : t < 1 := by
    rw [ht, div_lt_one hd]
    exact Nat.cast_lt.2 (Nat.mod_lt num h)
  have h2 : 2 * t = (2 * (num % den) : Nat) / den := by
    rw [ht, Nat.cast_mul, Nat.cast_two, mul_div_assoc]
  rw [hx, nearest]
  generalize num / den = whole
  have hsucc : ((whole + 1 : Nat) : ℚ) = whole + 1 := Nat.cast_succ whole
  rcases hc : compare (2 * (num % den)) den
  · have hlt : 2 * t < 1 := by
      rw [h2, div_lt_one hd]
      exact Nat.cast_lt.2 (Nat.compare_eq_lt.1 hc)
    refine ⟨by linarith, by linarith, ?_⟩
    rintro (he | he) <;> linarith
  · have heq : 2 * t = 1 := by
      rw [h2, Nat.compare_eq_eq.1 hc, div_self hd.ne']
    rcases Nat.mod_two_eq_zero_or_one whole with hw | hw
    · show IsNearestNat _ (whole + whole % 2)
      rw [hw, Nat.add_zero]
      exact ⟨by linarith, by linarith, fun _ => hw⟩
    · show IsNearestNat _ (whole + whole % 2)
      rw [hw]
      exact ⟨by linarith, by linarith, fun _ => by omega⟩
  · have hgt : 1 < 2 * t := by
      rw [h2, one_lt_div hd]
      exact Nat.cast_lt.2 (Nat.compare_eq_gt.1 hc)
    refine ⟨by linarith, by linarith, ?_⟩
    rintro (he | he) <;> linarith

/-! ### The nearest magnitude -/

/-- The magnitude of a rank, as a number. -/
def magnitude (rank : Nat) : ℚ :=
  unitsWorth (units rank)

theorem magnitude_eq (rank : Nat) : magnitude rank = units rank / one := by
  rw [magnitude, unitsWorth, Int.cast_natCast]

theorem strictMono_magnitude : StrictMono magnitude := by
  intro a b hab
  rw [magnitude_eq, magnitude_eq]
  exact div_lt_div_of_pos_right (Nat.cast_lt.2 (strictMono_units hab)) one_pos

theorem binade_eq : binade = 2 ^ 52 :=
  rfl

theorem cast_binade : (binade : ℚ) = 2 ^ 52 := by
  norm_num [binade]

theorem magnitude_zero : magnitude 0 = 0 := by
  rw [magnitude_eq, units_zero, Nat.cast_zero, zero_div]

theorem magnitude_of_units {rank m : Nat} (h : units rank = m * one) : magnitude rank = m := by
  rw [magnitude_eq, h, Nat.cast_mul, mul_div_cancel_right₀ _ one_pos.ne']

/-- Powers of two are the starts of binades. -/
theorem magnitude_start (k : Nat) : magnitude ((1023 + k) * binade) = 2 ^ k := by
  have hn : Normal (1022 + k) binade := ⟨by have := binade_pos; omega, .inr (Nat.le_refl _)⟩
  have hr : (1023 + k) * binade = (1022 + k) * binade + binade := by ring
  have hu : units ((1023 + k) * binade) = 2 ^ k * one := by
    rw [hr, units_normal hn, binade_eq, one_eq, ← pow_add, ← pow_add]
    exact congrArg (2 ^ ·) (by omega)
  rw [magnitude_of_units hu, Nat.cast_pow, Nat.cast_two]

/-- No magnitude is nearer to the number than that of the rank, and others are as near only if
    the rank is even. -/
structure IsNearest (x : ℚ) (rank : Nat) : Prop where
  near : ∀ other, |x - magnitude rank| ≤ |x - magnitude other|
  even : ∀ other, other ≠ rank → |x - magnitude rank| = |x - magnitude other| → rank % 2 = 0

/-- A count up to the end of a binade is a magnitude also when it is the end. -/
theorem units_count {shift count : Nat} (hc : count ≤ 2 * binade)
    (hs : shift = 0 ∨ binade ≤ count) : units (shift * binade + count) = count * 2 ^ shift := by
  rcases Nat.lt_or_eq_of_le hc with hlt | rfl
  · exact units_normal ⟨hlt, hs⟩
  · have hb := binade_pos
    have hn : Normal shift (2 * binade - 1) := ⟨by omega, .inr (by omega)⟩
    have hu := units_succ hn
    rwa [Nat.add_assoc, Nat.sub_add_cancel (by omega)] at hu

/-- Beyond a count the next magnitude is at least one count further. -/
theorem le_units_of_lt {shift count rank : Nat} (hc : count ≤ 2 * binade)
    (hs : shift = 0 ∨ binade ≤ count) (hr : shift * binade + count < rank) :
    (count + 1) * 2 ^ shift ≤ units rank := by
  refine le_trans ?_ (strictMono_units.monotone (Nat.succ_le_of_lt hr))
  rcases Nat.lt_or_eq_of_le hc with hlt | rfl
  · exact (units_succ ⟨hlt, hs⟩).ge
  · -- The end of the binade is the start of the next one, where the counts are twice as far.
    have hb := binade_pos
    have hn : Normal (shift + 1) binade := ⟨by omega, .inr (Nat.le_refl _)⟩
    have he : shift * binade + 2 * binade = (shift + 1) * binade + binade := by ring
    calc (2 * binade + 1) * 2 ^ shift ≤ (2 * binade + 2) * 2 ^ shift :=
          Nat.mul_le_mul_right _ (Nat.le_succ _)
      _ = (binade + 1) * 2 ^ (shift + 1) := by ring
      _ = units ((shift * binade + 2 * binade).succ) := by rw [he, ← units_succ hn]

/-- Below a count the next magnitude is at least one count further, unless the count is the
    start of a binade. -/
theorem units_le_of_lt {shift count rank : Nat} (hc : count ≤ 2 * binade)
    (hs : shift = 0 ∨ binade < count) (hr : rank < shift * binade + count) :
    units rank + 2 ^ shift ≤ count * 2 ^ shift := by
  obtain ⟨k, rfl⟩ : ∃ k, count = k + 1 := by
    refine ⟨count - 1, ?_⟩
    rcases hs with rfl | hlt
    · omega
    · omega
  have hn : Normal shift k := ⟨by omega, hs.imp_right Nat.le_of_lt_succ⟩
  have hle : rank ≤ shift * binade + k := by omega
  calc units rank + 2 ^ shift ≤ units (shift * binade + k) + 2 ^ shift :=
        Nat.add_le_add_right (strictMono_units.monotone hle) _
    _ = (k + 1) * 2 ^ shift := by rw [units_normal hn, Nat.succ_mul]

/-- The whole part of a quotient, compared with the quotient. -/
theorem cast_div_le_lt (a : Nat) {b : Nat} (hb : 0 < b) :
    ((a / b : Nat) : ℚ) ≤ a / b ∧ (a / b : ℚ) < (a / b : Nat) + 1 := by
  refine ⟨Nat.cast_div_le, ?_⟩
  rw [div_lt_iff₀ (Nat.cast_pos.2 hb), ← Nat.cast_succ, ← Nat.cast_mul, Nat.cast_lt, Nat.succ_mul]
  exact Nat.lt_div_mul_add hb

/-- Half a step from `u` or less, what is a step further up is not nearer. -/
theorem near_above {x u w p : ℚ} (hl : u - p / 2 ≤ x) (hu : x ≤ u + p / 2) (hw : u + p ≤ w) :
    |x - u| ≤ |x - w| ∧ (|x - u| = |x - w| → x = u + p / 2) := by
  have habs : |x - u| ≤ p / 2 := abs_le.2 ⟨by linarith, by linarith⟩
  rw [abs_sub_comm x w, abs_of_nonneg (by linarith : 0 ≤ w - x)]
  exact ⟨by linarith, fun h => by linarith⟩

/-- Nor is what is a step further down. -/
theorem near_below {x u w p : ℚ} (hl : u - p / 2 ≤ x) (hu : x ≤ u + p / 2) (hw : w + p ≤ u) :
    |x - u| ≤ |x - w| ∧ (|x - u| = |x - w| → x = u - p / 2) := by
  have habs : |x - u| ≤ p / 2 := abs_le.2 ⟨by linarith, by linarith⟩
  rw [abs_of_nonneg (by linarith : 0 ≤ x - w)]
  exact ⟨by linarith, fun h => by linarith⟩

/-- So many units are within half a step of the count, where the steps are those of the shift,
    and half a step from it only if the count is even. -/
structure Counted (x : ℚ) (shift count : Nat) : Prop where
  count_le : count ≤ 2 * binade
  start : shift = 0 ∨ binade ≤ count
  start_le : shift = 0 ∨ (binade * 2 ^ shift : ℚ) ≤ x
  lower : (count * 2 ^ shift - 2 ^ shift / 2 : ℚ) ≤ x
  upper : x ≤ (count * 2 ^ shift + 2 ^ shift / 2 : ℚ)
  even : x = (count * 2 ^ shift - 2 ^ shift / 2 : ℚ) ∨ x = (count * 2 ^ shift + 2 ^ shift / 2 : ℚ) →
    count % 2 = 0

/-- The nearest count, in steps of the shift. -/
theorem IsNearestNat.counted {x : ℚ} {shift count : Nat} (h : IsNearestNat (x / 2 ^ shift) count)
    (hx : x < 2 * binade * 2 ^ shift) (hs : shift = 0 ∨ (binade * 2 ^ shift : ℚ) ≤ x) :
    Counted x shift count := by
  have hp : (0 : ℚ) < 2 ^ shift := by positivity
  have hl := (le_div_iff₀ hp).1 h.lower
  have hu := (div_le_iff₀ hp).1 h.upper
  refine ⟨?_, ?_, hs, by linarith, by linarith, ?_⟩
  · have hlt : (count : ℚ) < (2 * binade + 1 : Nat) := by
      have := h.lower.trans_lt ((div_lt_iff₀ hp).2 hx)
      rw [Nat.cast_succ, Nat.cast_mul, Nat.cast_two]
      linarith
    exact Nat.le_of_lt_succ (Nat.cast_lt.1 hlt)
  · refine hs.imp_right fun hle => ?_
    have hlt : (binade : ℚ) < (count + 1 : Nat) := by
      have := ((le_div_iff₀ hp).2 hle).trans h.upper
      rw [Nat.cast_succ]
      linarith
    exact Nat.le_of_lt_succ (Nat.cast_lt.1 hlt)
  · intro he
    refine h.even (he.imp (fun he => ?_) fun he => ?_) <;> rw [he, div_eq_iff hp.ne'] <;> ring

/-- The shift and the count that a quotient is rounded to. -/
theorem roundRank_counted (a : Nat) {b : Nat} (hb : 0 < b) :
    ∃ shift count, roundRank a b = shift * binade + count ∧ Counted (a / b) shift count := by
  obtain ⟨shift, hs⟩ : ∃ shift, shift = (a / b).log2 - 52 := ⟨_, rfl⟩
  obtain ⟨hle, hlt⟩ := cast_div_le_lt a hb
  have hn := isNearestNat_nearest a (Nat.mul_pos hb (Nat.two_pow_pos shift))
  rw [Nat.cast_mul, ← div_div, Nat.cast_pow, Nat.cast_two] at hn
  refine ⟨shift, nearest a (b * 2 ^ shift), by rw [hs]; rfl, hn.counted ?_ ?_⟩
  · -- The quotient has no more binary digits than the shift allows for.
    have hq : a / b + 1 ≤ 2 ^ (53 + shift) :=
      Nat.lt_log2_self.trans_le (Nat.pow_le_pow_right two_pos (by omega))
    calc (a / b : ℚ) < (a / b : Nat) + 1 := hlt
      _ ≤ 2 ^ (53 + shift) := by exact_mod_cast hq
      _ = 2 * binade * 2 ^ shift := by rw [pow_add, cast_binade]; norm_num
  · rcases Nat.eq_zero_or_pos shift with h0 | hpos
    · exact .inl h0
    · -- It has as many, unless the shift is zero.
      have hlog : 52 + shift = (a / b).log2 := by omega
      have hne : a / b ≠ 0 := by
        intro h
        rw [h, Nat.log2_zero] at hlog
        omega
      have hq : 2 ^ (52 + shift) ≤ a / b := (Nat.le_log2 hne).1 hlog.le
      rw [cast_binade, ← pow_add]
      exact .inr (le_trans (by exact_mod_cast hq) hle)

namespace Counted

variable {x : ℚ} {shift count other : Nat}

theorem units_eq (h : Counted x shift count) :
    (units (shift * binade + count) : ℚ) = count * 2 ^ shift := by
  rw [units_count h.count_le h.start, Nat.cast_mul, Nat.cast_pow, Nat.cast_two]

/-- A binade has an even number of ranks. -/
theorem rank_mod_two (h : count % 2 = 0) : (shift * binade + count) % 2 = 0 := by
  have hb : binade % 2 = 0 := by decide
  rw [Nat.add_mod, Nat.mul_mod, hb, h, Nat.mul_zero]

theorem near_of_gt (h : Counted x shift count) (ho : shift * binade + count < other) :
    |x - units (shift * binade + count)| ≤ |x - units other| ∧
      (|x - units (shift * binade + count)| = |x - units other| →
        (shift * binade + count) % 2 = 0) := by
  have hw : (count * 2 ^ shift + 2 ^ shift : ℚ) ≤ units other := by
    have hle := le_units_of_lt h.count_le h.start ho
    rw [Nat.succ_mul] at hle
    exact_mod_cast hle
  rw [h.units_eq]
  exact (near_above h.lower h.upper hw).imp_right
    fun htie he => rank_mod_two (h.even (.inr (htie he)))

theorem near_of_lt (h : Counted x shift count) (ho : other < shift * binade + count) :
    |x - units (shift * binade + count)| ≤ |x - units other| ∧
      (|x - units (shift * binade + count)| = |x - units other| →
        (shift * binade + count) % 2 = 0) := by
  by_cases hstart : shift = 0 ∨ binade < count
  · have hw : (units other + 2 ^ shift : ℚ) ≤ count * 2 ^ shift := by
      exact_mod_cast units_le_of_lt h.count_le hstart ho
    rw [h.units_eq]
    exact (near_below h.lower h.upper hw).imp_right
      fun htie he => rank_mod_two (h.even (.inl (htie he)))
  · -- At the start of a binade the steps below are smaller, but the number is not below it.
    rw [not_or] at hstart
    have hc : count = binade := Nat.le_antisymm (by omega) (h.start.resolve_left hstart.1)
    have hle : (units (shift * binade + count) : ℚ) ≤ x := by
      rw [h.units_eq, hc]
      exact h.start_le.resolve_left hstart.1
    have hlt : (units other : ℚ) < units (shift * binade + count) :=
      Nat.cast_lt.2 (strictMono_units ho)
    rw [abs_of_nonneg (by linarith), abs_of_nonneg (by linarith)]
    exact ⟨by linarith, fun he => absurd he (by linarith)⟩

end Counted

/-- A quotient is rounded to the nearest magnitude. -/
theorem isNearest_roundRank (a : Nat) {b : Nat} (hb : 0 < b) :
    IsNearest (a / b / one) (roundRank a b) := by
  obtain ⟨shift, count, hr, hc⟩ := roundRank_counted a hb
  have hdist (rank : Nat) :
      |(a / b / one : ℚ) - magnitude rank| = |(a / b : ℚ) - units rank| / one := by
    rw [magnitude_eq, ← sub_div, abs_div, abs_of_pos one_pos]
  have hnear {other : Nat} (ho : other ≠ shift * binade + count) :=
    (Nat.lt_or_gt_of_ne ho).elim hc.near_of_lt hc.near_of_gt
  rw [hr]
  refine ⟨fun other => ?_, fun other ho he => ?_⟩
  · by_cases ho : other = shift * binade + count
    · rw [ho]
    · rw [hdist, hdist]
      exact div_le_div_of_nonneg_right (hnear ho).1 one_pos.le
  · rw [hdist, hdist, div_left_inj' one_pos.ne'] at he
    exact (hnear ho).2 he

/-- Every number that is not negative has a nearest magnitude. -/
theorem exists_isNearest {x : ℚ} (hx : 0 ≤ x) : ∃ rank, IsNearest x rank := by
  have h := isNearest_roundRank (x.num.toNat * one) x.den_pos
  have hn : ((x.num.toNat : Nat) : ℚ) = x.num := by
    exact_mod_cast Int.toNat_of_nonneg (Rat.num_nonneg.2 hx)
  rw [Nat.cast_mul, hn, mul_div_right_comm, Rat.num_div_den,
    mul_div_cancel_right₀ _ one_pos.ne'] at h
  exact ⟨_, h⟩

namespace IsNearest

variable {x y z : ℚ} {r s : Nat}

/-- A number that is not nearer to the smaller one of two is not below the middle. -/
theorem middle_le {u w : ℚ} (hw : w < u) (h : |x - u| ≤ |x - w|) : (w + u) / 2 ≤ x := by
  by_contra hx
  rw [not_le] at hx
  rw [abs_of_neg (by linarith : x - u < 0)] at h
  exact absurd h (not_le.2 (abs_lt.2 ⟨by linarith, by linarith⟩))

theorem le_middle {u w : ℚ} (hw : w < u) (h : |x - w| ≤ |x - u|) : x ≤ (w + u) / 2 := by
  by_contra hx
  rw [not_le] at hx
  rw [abs_of_pos (by linarith : 0 < x - w)] at h
  exact absurd h (not_le.2 (abs_lt.2 ⟨by linarith, by linarith⟩))

/-- The nearest magnitude grows with the number. -/
theorem mono (hx : IsNearest x r) (hy : IsNearest y s) (h : x ≤ y) : r ≤ s := by
  by_contra hlt
  rw [not_le] at hlt
  have hu := strictMono_magnitude hlt
  -- Otherwise both numbers are in the middle, and equally near to both magnitudes.
  have hxm := middle_le hu (hx.near s)
  have hym := le_middle hu (hy.near r)
  have hxu : |x - magnitude r| = |x - magnitude s| := by
    rw [abs_of_nonpos (by linarith), abs_of_nonneg (by linarith)]
    linarith
  have hyu : |y - magnitude s| = |y - magnitude r| := by
    rw [abs_of_nonneg (by linarith), abs_of_nonpos (by linarith)]
    linarith
  have hr := hx.even s hlt.ne hxu
  have hs := hy.even r hlt.ne' hyu
  -- Both ranks are even, so that there is one between them, which is nearer.
  have hnext : s + 1 < r := by omega
  have hm := middle_le (strictMono_magnitude hnext) (hx.near (s + 1))
  have hs' := strictMono_magnitude (Nat.lt_succ_self s)
  linarith

theorem unique (hr : IsNearest x r) (hs : IsNearest x s) : r = s :=
  Nat.le_antisymm (hr.mono hs le_rfl) (hs.mono hr le_rfl)

/-- What lies between two numbers of the same nearest magnitude has it too. -/
theorem between (hx : IsNearest x r) (hz : IsNearest z r) (hxy : x ≤ y) (hyz : y ≤ z)
    (hy : 0 ≤ y) : IsNearest y r := by
  obtain ⟨s, hs⟩ := exists_isNearest hy
  obtain rfl : r = s := Nat.le_antisymm (hx.mono hs hxy) (hs.mono hz hyz)
  exact hs

end IsNearest

/-- A magnitude is nearest to itself. -/
theorem isNearest_magnitude (rank : Nat) : IsNearest (magnitude rank) rank := by
  refine ⟨fun other => ?_, fun other ho he => ?_⟩
  · rw [sub_self, abs_zero]
    exact abs_nonneg _
  · rw [sub_self, abs_zero, eq_comm, abs_eq_zero, sub_eq_zero] at he
    exact absurd (strictMono_magnitude.injective he).symm ho

end Tudlo.Binary64
