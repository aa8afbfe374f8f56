import Mathlib.Data.List.DropRight
import Tudlo.Proofs.Decimal.Display

/-!
# Significant digits

How many digits a text for a decimal really needs: those of its exponent are not counted, nor
are zeros in front of the others or at their end (`Numeral.significant`). A text has at most
`k` of them when its digits are a number below `10 ^ k` times a power of ten
(`Numeral.significant_le_iff`).

The main statement is `significant_display`. No text that is read as a given finite number has
fewer significant digits than what is displayed for the number, unless the number is whole and
large. Whole numbers are displayed exactly, and for large ones this is more than is needed: the
first of them is `2 ^ 54 + 8` (`display_overlong`).
-/

namespace Tudlo

namespace Numeral

/-! ### Counting digits -/

/-- The digits that a text for a decimal has before its exponent. -/
def mantissa (cs : List Char) : List Char :=
  (cs.takeWhile fun c => c.toLower != 'e').filter Char.isDigit

/-- The digits without the zeros in front and at the end. -/
def trimmed (ds : List Char) : List Char :=
  (ds.dropWhile (· == '0')).rdropWhile (· == '0')

/-- The number of significant digits of a text for a decimal. -/
def significant (cs : List Char) : Nat :=
  (trimmed (mantissa cs)).length

/-- The number has `k` digits or fewer, apart from zeros at the end. -/
def Within (k n : Nat) : Prop :=
  ∃ m t, n = m * 10 ^ t ∧ m < 10 ^ k

variable {k n : Nat} {d : Char} {ds : List Char}

theorem within_of_lt (h : n < 10 ^ k) : Within k n :=
  ⟨n, 0, (Nat.mul_one n).symm, h⟩

theorem within_pow (hk : 0 < k) : Within k (10 ^ k) :=
  ⟨1, k, (Nat.one_mul _).symm, Nat.one_lt_pow hk.ne' (by decide)⟩

theorem pos_of_lt_pow (hn : 0 < n) (h : n < 10 ^ k) : 0 < k :=
  Nat.pos_of_ne_zero (by rintro rfl; omega)

theorem Within.mul_ten (h : Within k n) : Within k (n * 10) := by
  obtain ⟨m, t, rfl, hm⟩ := h
  exact ⟨m, t + 1, by rw [Nat.pow_succ, Nat.mul_assoc], hm⟩

/-- Digits that do not end with a zero all count, whatever zeros follow. -/
theorem Within.lt_pow {t : Nat} (h : Within k (n * 10 ^ t)) (hn : ¬ 10 ∣ n) : n < 10 ^ k := by
  obtain ⟨m, s, he, hm⟩ := h
  rcases Nat.lt_or_ge t s with hlt | hge
  · obtain ⟨i, rfl⟩ := Nat.exists_eq_add_of_lt hlt
    have hi : n = m * 10 ^ i * 10 := by
      refine Nat.eq_of_mul_eq_mul_right (Nat.pow_pos (by decide) : 0 < 10 ^ t) (he.trans ?_)
      ring
    exact absurd (hi ▸ Nat.dvd_mul_left 10 _) hn
  · obtain ⟨i, rfl⟩ := Nat.exists_eq_add_of_le hge
    have hi : n * 10 ^ i = m := by
      refine Nat.eq_of_mul_eq_mul_right (Nat.pow_pos (by decide) : 0 < 10 ^ s) (he ▸ ?_)
      ring
    exact (hi ▸ Nat.le_mul_of_pos_right n (Nat.pow_pos (by decide))).trans_lt hm

/-! ### Zeros in front and at the end -/

theorem natOf_dropWhile (ds : List Char) : natOf (ds.dropWhile (· == '0')) = natOf ds := by
  induction ds with
  | nil => rfl
  | cons d ds ih =>
    rcases eq_or_ne d '0' with rfl | hd
    · rw [List.dropWhile_cons_of_pos (by rfl), ih]
      rfl
    · rw [List.dropWhile_cons_of_neg (by simpa using hd)]

theorem exists_natOf_rdropWhile (ds : List Char) :
    ∃ t, natOf ds = natOf (ds.rdropWhile (· == '0')) * 10 ^ t := by
  induction ds using List.reverseRecOn with
  | nil => exact ⟨0, rfl⟩
  | append_singleton ds d ih =>
    rcases eq_or_ne d '0' with rfl | hd
    · obtain ⟨t, ht⟩ := ih
      refine ⟨t + 1, ?_⟩
      rw [List.rdropWhile_concat_pos _ _ _ (by rfl), natOf_append, ht, Nat.pow_succ,
        ← Nat.mul_assoc]
      rfl
    · refine ⟨0, ?_⟩
      rw [List.rdropWhile_concat_neg _ _ _ (by simpa using hd), Nat.pow_zero, Nat.mul_one]

theorem exists_natOf_trimmed (ds : List Char) : ∃ t, natOf ds = natOf (trimmed ds) * 10 ^ t := by
  obtain ⟨t, ht⟩ := exists_natOf_rdropWhile (ds.dropWhile (· == '0'))
  exact ⟨t, (natOf_dropWhile ds).symm.trans ht⟩

theorem trimmed_initial (ds : List Char) : trimmed ds <+: ds.dropWhile (· == '0') :=
  List.rdropWhile_prefix _ _

theorem isDigit_of_mem_trimmed (h : ∀ d ∈ ds, d.isDigit = true) :
    ∀ d ∈ trimmed ds, d.isDigit = true :=
  fun d hd => h d ((List.dropWhile_suffix _).mem ((trimmed_initial ds).mem hd))

theorem head_trimmed_ne (hd : d ∈ (trimmed ds).head?) : d ≠ '0' := by
  obtain ⟨rest, hrest⟩ := trimmed_initial ds
  have hd' : (ds.dropWhile (· == '0')).head? = some d := by
    rw [← hrest, List.head?_append, Option.mem_def.1 hd, Option.some_or]
  have hne := List.head?_dropWhile_not (· == '0') ds
  rw [hd'] at hne
  simpa using hne

theorem getLast_trimmed_ne (hd : d ∈ (trimmed ds).getLast?) : d ≠ '0' := by
  obtain ⟨hne, rfl⟩ := List.mem_getLast?_eq_getLast hd
  exact fun hz => List.rdropWhile_last_not (· == '0') _ hne (beq_iff_eq.2 hz)

/-! ### The number of digits -/

/-- Digits that neither begin nor end with a zero are as few as the number has. -/
theorem length_trimmed_le {t : Nat} (hds : ∀ d ∈ ds, d.isDigit = true)
    (h : Within k (natOf (trimmed ds) * 10 ^ t)) : (trimmed ds).length ≤ k := by
  have hdig := isDigit_of_mem_trimmed hds
  rcases hl : trimmed ds with _ | ⟨d, rest⟩
  · exact Nat.zero_le k
  · obtain ⟨last, hlast⟩ : ∃ last, last ∈ (trimmed ds).getLast? := by
      rw [hl]
      exact ⟨_, List.getLast?_eq_some_getLast (List.cons_ne_nil d rest)⟩
    have hten : ¬ 10 ∣ natOf (trimmed ds) := by
      obtain ⟨init, hinit⟩ := List.getLast?_eq_some_iff.1 hlast
      have hz := getLast_trimmed_ne hlast
      have hd := hdig last (List.mem_of_getLast? hlast)
      rw [hinit]
      exact not_ten_dvd_natOf hd hz init
    have hfirst : 10 ^ rest.length ≤ natOf (trimmed ds) := by
      have hd : d ∈ (trimmed ds).head? := by
        rw [hl]
        rfl
      have hz := head_trimmed_ne hd
      rw [hl]
      exact pow_le_natOf (hdig d (List.mem_of_mem_head? hd)) hz rest
    exact (Nat.pow_lt_pow_iff_right (by decide)).1 (hfirst.trans_lt (h.lt_pow hten))

theorem isDigit_of_mem_mantissa (cs : List Char) : ∀ d ∈ mantissa cs, d.isDigit = true :=
  fun _ hd => List.of_mem_filter hd

/-- A text has at most `k` significant digits when its digits write a number that has. -/
theorem significant_le_iff {cs : List Char} :
    significant cs ≤ k ↔ Within k (natOf (mantissa cs)) := by
  obtain ⟨t, ht⟩ := exists_natOf_trimmed (mantissa cs)
  rw [significant, ht]
  constructor
  · intro hk
    have hlt := natOf_lt_pow (isDigit_of_mem_trimmed (isDigit_of_mem_mantissa cs))
    exact ⟨_, t, rfl, hlt.trans_le (Nat.pow_le_pow_right (by decide) hk)⟩
  · exact length_trimmed_le (isDigit_of_mem_mantissa cs)

/-! ### Texts that are read -/

/-- Before the exponent, the digits are picked out. -/
theorem mantissa_append {cs : List Char} (h : ∀ c ∈ cs, c.toLower ≠ 'e') (ds : List Char) :
    mantissa (cs ++ ds) = cs.filter Char.isDigit ++ mantissa ds := by
  have hp : ∀ c ∈ cs, (c.toLower != 'e') = true := fun c hc => bne_iff_ne.2 (h c hc)
  rw [mantissa, List.takeWhile_append_of_pos hp, List.filter_append, mantissa]

theorem mantissa_of_exponent? {cs : List Char} {e : Int} (h : exponent? cs = some e) :
    mantissa cs = [] := by
  cases cs with
  | nil => rfl
  | cons c cs =>
    rw [exponent?] at h
    split at h
    · rename_i hc
      rw [mantissa, List.takeWhile_cons_of_neg (by simp [hc]), List.filter_nil]
    · cases h

theorem mantissa_digits_append (hd : ∀ c ∈ ds, c.isDigit = true) (cs : List Char) :
    mantissa (ds ++ cs) = ds ++ mantissa cs := by
  have he : ∀ c ∈ ds, c.toLower ≠ 'e' := by
    intro c hc heq
    have hc' := hd c hc
    rw [toLower_of_isDigit hc'] at heq
    subst heq
    cases hc'
  rw [mantissa_append he, List.filter_eq_self.2 hd]

theorem mantissa_cons {c : Char} (h : c.isDigit = false) (he : c.toLower ≠ 'e') (cs : List Char) :
    mantissa (c :: cs) = mantissa cs := by
  have hc : ∀ d ∈ [c], d.toLower ≠ 'e' := by simpa using he
  rw [← List.singleton_append, mantissa_append hc, List.filter_singleton, h]
  rfl

theorem mantissa_splitSign (cs : List Char) : mantissa (splitSign cs).2 = mantissa cs := by
  unfold splitSign
  split
  · rw [mantissa_cons (by rfl) (by decide)]
  · rw [mantissa_cons (by rfl) (by decide)]
  · rfl

/-- The digits that a text begins with are digits of its numeral. -/
theorem mantissa_eq (cs : List Char) :
    mantissa cs = cs.takeWhile Char.isDigit ++ mantissa (cs.dropWhile Char.isDigit) := by
  have hd : ∀ c ∈ cs.takeWhile Char.isDigit, c.isDigit = true := fun _ => List.mem_takeWhile_imp
  rw [← mantissa_digits_append hd, List.takeWhile_append_dropWhile]

/-- The digits of a numeral are those before the exponent. -/
theorem digits_of_unsigned? {negative : Bool} {cs : List Char} {n : Numeral}
    (h : unsigned? negative cs = some n) : n.digits = natOf (mantissa cs) := by
  have hn {whole fraction rest : List Char}
      (h : (if whole.isEmpty && fraction.isEmpty then none
        else (exponent? rest).map (ofDigits negative whole fraction)) = some n) :
      n.digits = natOf (whole ++ fraction) ∧ mantissa rest = [] := by
    split at h
    · cases h
    · obtain ⟨e, he, rfl⟩ := Option.map_eq_some_iff.1 h
      exact ⟨rfl, mantissa_of_exponent? he⟩
  rw [mantissa_eq]
  simp only [unsigned?] at h
  split at h
  · rename_i ds hds
    obtain ⟨hd, hr⟩ := hn h
    rw [hds, mantissa_cons (by rfl) (by decide), mantissa_eq ds, hr, List.append_nil, hd]
  · obtain ⟨hd, hr⟩ := hn h
    rw [hr, hd]

/-- A text that is read as a finite number writes a numeral. -/
theorem exists_of_decimal? {cs : List Char} {negative : Bool} {rank : Fin Binary64.infinityRank}
    (h : decimal? cs = some (.finite negative rank)) :
    ∃ n : Numeral, n.toBinary64 = .finite negative rank ∧ n.digits = natOf (mantissa cs) := by
  simp only [decimal?] at h
  split at h
  · cases h
  · split at h
    · cases h
    · obtain ⟨n, hn, he⟩ := Option.map_eq_some_iff.1 h
      refine ⟨n, he, ?_⟩
      rw [digits_of_unsigned? hn, mantissa_splitSign]

end Numeral

namespace Binary64

open Numeral

variable {rank m k : Nat}

/-! ### The fewest digits -/

/-- Digits times a power of ten are a whole number, or have places. -/
theorem mul_zpow_cases (m : Nat) (e : Int) :
    (∃ i : Nat, (m * 10 ^ e : ℚ) = (m * 10 ^ i : Nat)) ∨
      0 < m ∧ ∃ places, (m * 10 ^ e : ℚ) = scaled m places := by
  rcases Nat.eq_zero_or_pos m with rfl | hm
  · exact .inl ⟨0, by simp⟩
  cases e with
  | ofNat i =>
    refine .inl ⟨i, ?_⟩
    rw [Nat.cast_mul, Nat.cast_pow]
    rfl
  | negSucc i =>
    refine .inr ⟨hm, i + 1, ?_⟩
    rw [zpow_negSucc, ← div_eq_mul_inv]
    rfl

/-- If digits below `10 ^ k` are enough with more places, and the digits with fewer places are
    not, then `10 ^ k` lies between them. -/
theorem isNearest_pow {digits places more : Nat} (hd : IsNearest (scaled digits places) rank)
    (hk : 10 ^ k ≤ digits) (hm : m < 10 ^ k) (hn : IsNearest (scaled m more) rank)
    (hp : places ≤ more) : IsNearest (scaled (10 ^ k) places) rank := by
  refine hn.between hd ?_ (scaled_le_scaled hk places) (scaled_nonneg _ _)
  calc scaled m more ≤ scaled (10 ^ k) more := scaled_le_scaled hm.le more
    _ ≤ scaled (10 ^ k) places := by
        rw [scaled, scaled]
        gcongr
        norm_num

/-- Of a magnitude that is not whole, no fewer digits than those with the fewest places are
    read back. -/
theorem within_shortest {e : Int} (h : ¬ one ∣ units rank) (hm : m < 10 ^ k)
    (hn : IsNearest (m * 10 ^ e) rank) : Within k (shortest rank).1 := by
  rcases mul_zpow_cases m e with ⟨i, hi⟩ | ⟨hpos, more, hmore⟩
  · rw [hi] at hn
    exact absurd (whole_of_isNearest hn) h
  rw [hmore] at hn
  by_contra hw
  have hge : 10 ^ k ≤ (shortest rank).1 := Nat.not_lt.1 fun hlt => hw (within_of_lt hlt)
  have hpow := isNearest_pow (isNearest_shortest rank) hge hm hn (shortest_le hn)
  rcases Nat.lt_or_ge k (shortest rank).2 with hlt | hle
  · -- The power of ten has fewer places.
    obtain ⟨i, hi⟩ := Nat.exists_eq_add_of_lt hlt
    rw [hi, Nat.add_assoc, Nat.add_comm k, ← Nat.one_mul (10 ^ k), scaled_mul_pow] at hpow
    have hle := shortest_le hpow
    have hk := pos_of_lt_pow hpos hm
    omega
  · -- The power of ten is whole.
    obtain ⟨i, rfl⟩ := Nat.exists_eq_add_of_le' hle
    have hs := scaled_mul_pow (10 ^ i) 0 (shortest rank).2
    rw [Nat.zero_add, scaled_zero, ← Nat.pow_add] at hs
    rw [hs] at hpow
    exact h (whole_of_isNearest hpow)

/-! ### Whole magnitudes -/

/-- A count times a power of two is a whole magnitude. -/
theorem exists_magnitude {count : Nat} (shift : Nat) (hc : count < 2 * binade) :
    ∃ r, magnitude r = (count * 2 ^ shift : Nat) := by
  obtain ⟨r, -, hr⟩ := exists_units_eq (shift + 1074) hc
  refine ⟨r, magnitude_of_units ?_⟩
  rw [hr, pow_add, one_eq, mul_assoc]

/-- Up to `2 ^ 53` every whole number is a magnitude, and every even one up to `2 ^ 54`. -/
theorem exists_magnitude_of_le {n : Nat} (h : n ≤ 2 ^ 53 ∨ n % 2 = 0 ∧ n ≤ 2 ^ 54) :
    ∃ r, magnitude r = n := by
  have hb := binade_eq
  by_cases h1 : n < 2 * binade
  · obtain ⟨r, hr⟩ := exists_magnitude 0 h1
    exact ⟨r, hr.trans (congrArg Nat.cast (Nat.mul_one n))⟩
  by_cases h2 : n / 2 < 2 * binade
  · obtain ⟨r, hr⟩ := exists_magnitude 1 h2
    exact ⟨r, hr.trans (congrArg Nat.cast (by omega))⟩
  · obtain ⟨r, hr⟩ := exists_magnitude 2 (by omega : binade < 2 * binade)
    exact ⟨r, hr.trans (congrArg Nat.cast (by omega))⟩

/-- The rank of `2 ^ 54 + 8`, to which two less is rounded. -/
def overlongRank : Nat := 1077 * binade + 2

theorem units_overlongRank : units overlongRank = (2 ^ 54 + 8) * one := by
  decide +kernel

theorem isNearest_overlongRank : IsNearest (2 ^ 54 + 6 : Nat) overlongRank := by
  rw [← scaled_zero, ← readsBack_iff]
  decide +kernel

/-- A whole number that is read as a whole magnitude below `2 ^ 54 + 8` is this magnitude, or
    has as many digits. -/
theorem within_of_isNearest {n w : Nat} (hw : magnitude rank = w) (hlt : w < 2 ^ 54 + 8)
    (hn : IsNearest n rank) (hk : Within k n) : Within k w := by
  by_cases hm : ∃ r, magnitude r = n
  · obtain ⟨r, hr⟩ := hm
    have hr' := isNearest_magnitude r
    rw [hr] at hr'
    rw [hn.unique hr', hr, Nat.cast_inj] at hw
    exact hw ▸ hk
  -- What is not a magnitude is beyond `2 ^ 53`, and too small to be rounded to `2 ^ 54 + 8`.
  have hodd : 2 ^ 53 < n ∧ (n % 2 = 1 ∨ 2 ^ 54 < n) := by
    by_contra hne
    exact hm (exists_magnitude_of_le (by omega))
  have hend : n < 2 ^ 54 + 6 := by
    by_contra hge
    have hr := isNearest_overlongRank.mono hn (Nat.cast_le.2 (Nat.not_lt.1 hge))
    have hle := strictMono_magnitude.monotone hr
    rw [hw, magnitude_of_units units_overlongRank, Nat.cast_le] at hle
    omega
  have hten : ¬ 10 ∣ n := by omega
  have hlow : n < 10 ^ k := by
    rw [← Nat.mul_one n, ← Nat.pow_zero 10] at hk
    exact hk.lt_pow hten
  rcases Nat.lt_or_ge (2 ^ 54) n with hgt | hle
  · have hk16 : 16 < k := (Nat.pow_lt_pow_iff_right (by decide : 1 < 10)).1 (by omega)
    have hk17 : 10 ^ 17 ≤ 10 ^ k := Nat.pow_le_pow_right (by decide) hk16
    exact within_of_lt (by omega)
  · -- The even numbers around it are magnitudes, so it is one away from the nearest.
    obtain ⟨r, hr⟩ := exists_magnitude_of_le (.inr (by omega) : n + 1 ≤ 2 ^ 53 ∨ _)
    have hnear := hn.near r
    rw [hw, hr, Nat.cast_succ, sub_add_cancel_left, abs_neg, abs_one] at hnear
    have hle' : (w : ℚ) ≤ (n + 1 : Nat) := by
      rw [Nat.cast_succ]
      linarith [(abs_le.1 hnear).1]
    rcases Nat.lt_or_eq_of_le ((Nat.cast_le.1 hle').trans hlow) with hlt' | rfl
    · exact within_of_lt hlt'
    · exact within_pow (pos_of_lt_pow (by omega) hlow)

/-- Of a whole magnitude below `2 ^ 54 + 8`, no fewer digits than its own are read back. -/
theorem within_whole {e : Int} (h : one ∣ units rank) (hlt : units rank < (2 ^ 54 + 8) * one)
    (hm : m < 10 ^ k) (hn : IsNearest (m * 10 ^ e) rank) : Within k (units rank / one) := by
  have hw := magnitude_of_dvd h
  have hlt' : units rank / one < 2 ^ 54 + 8 := Nat.div_lt_of_lt_mul (by rwa [Nat.mul_comm])
  generalize units rank / one = w at hw hlt' ⊢
  rcases mul_zpow_cases m e with ⟨i, hi⟩ | ⟨hpos, more, hmore⟩
  · rw [hi] at hn
    exact within_of_isNearest hw hlt' hn ⟨m, i, rfl, hm⟩
  rw [hmore] at hn
  rcases Nat.lt_or_ge w (10 ^ k) with hwk | hge
  · exact within_of_lt hwk
  · have hself : IsNearest (scaled w 0) rank := by
      rw [scaled_zero, ← hw]
      exact isNearest_magnitude rank
    have hpow := isNearest_pow hself hge hm hn (Nat.zero_le more)
    rw [scaled_zero] at hpow
    exact within_of_isNearest hw hlt' hpow (within_pow (pos_of_lt_pow hpos hm))

/-! ### Displayed digits -/

theorem natOf_mantissa_display (negative : Bool) (rank : Fin infinityRank) :
    natOf (mantissa (display (.finite negative rank)).toList) = (displayed rank).1 := by
  obtain ⟨whole, fraction, hw, hf, hnat, htext, -⟩ := exists_display negative rank
  have hs : ∀ cs, mantissa ((signText negative).toList ++ cs) = mantissa cs := by
    intro cs
    cases negative with
    | false => rfl
    | true => exact mantissa_cons (by rfl) (by decide) cs
  rw [htext, hs, mantissa_digits_append hw.2, mantissa_cons (by rfl) (by decide),
    ← List.append_nil fraction, mantissa_digits_append hf.2, ← hnat]
  simp [mantissa]

theorem isWhole_iff {negative : Bool} {rank : Fin infinityRank} :
    (Binary64.finite negative rank).isWhole = true ↔ one ∣ units rank :=
  beq_iff_eq.trans Nat.dvd_iff_mod_eq_zero.symm

theorem positional_whole (n : Nat) : positional (n * 10) 1 = n.repr ++ ".0" := by
  have hdiv : n * 10 / Nat.pow 10 1 = n := Nat.mul_div_cancel n (by decide)
  have hmod : n * 10 % Nat.pow 10 1 = 0 := Nat.mul_mod_left n 10
  rw [positional, hdiv, hmod, String.append_assoc]
  exact congrArg (n.repr ++ ·) (by decide)

/-- What is displayed for a finite number has the fewest significant digits of all texts that
    are read as the number, unless the number is whole and large. Whole numbers are displayed
    exactly. -/
theorem significant_display (negative : Bool) (rank : Fin infinityRank) :
    ((Binary64.finite negative rank).isWhole = true →
      (Value.decimal (.finite negative rank)).display =
        signText negative ++ ((units rank / one).repr ++ ".0")) ∧
    (((Binary64.finite negative rank).isWhole = true → units rank < (2 ^ 54 + 8) * one) →
      ∀ text, decimal? text = some (.finite negative rank) →
        significant (Value.decimal (.finite negative rank)).display.toList ≤ significant text) := by
  constructor
  · intro hw
    rw [Value.display, display, magnitudeText, displayed_of_dvd (isWhole_iff.1 hw),
      positional_whole]
  · intro hsmall text htext
    obtain ⟨n, hn, hdigits⟩ := exists_of_decimal? htext
    obtain ⟨m, t, hmt, hm⟩ := significant_le_iff.1 (Nat.le_refl (significant text))
    have hnear := (toBinary64_eq_finite_iff.1 hn).2
    have hworth : n.worth = m * 10 ^ (t + n.exponent) := by
      rw [worth, hdigits, hmt, Nat.cast_mul, Nat.cast_pow, zpow_add₀ (by norm_num), zpow_natCast,
        mul_assoc]
      rfl
    rw [hworth] at hnear
    rw [Value.display, significant_le_iff, natOf_mantissa_display]
    by_cases h : one ∣ units rank
    · rw [displayed_of_dvd h]
      exact (within_whole h (hsmall (isWhole_iff.2 h)) hm hnear).mul_ten
    · rw [displayed_of_not_dvd h]
      exact within_shortest h hm hnear

/-- The last number before `2 ^ 54 + 8`, and another text that is read as this number. -/
theorem significant_display_beforeOverlong :
    units 0x4350000000000001 < (2 ^ 54 + 8) * one ∧
    decimal? "18014398509481989e0".toList = some (.finite false ⟨0x4350000000000001, by decide⟩) ∧
    significant (Value.decimal (.finite false ⟨0x4350000000000001, by decide⟩)).display.toList ≤
      significant "18014398509481989e0".toList := by
  have hlt : units 0x4350000000000001 < (2 ^ 54 + 8) * one := by decide +kernel
  have hr : decimal? "18014398509481989e0".toList =
      some (.finite false ⟨0x4350000000000001, by decide⟩) := by decide +kernel
  exact ⟨hlt, hr, (significant_display false ⟨0x4350000000000001, by decide⟩).2 (fun _ => hlt) _ hr⟩

/-- `2 ^ 54 + 8` is displayed with one digit more than is needed. -/
theorem display_overlong :
    decimal? "18014398509481990.0".toList = some (.finite false ⟨overlongRank, by decide⟩) ∧
    (Value.decimal (.finite false ⟨overlongRank, by decide⟩)).display = "18014398509481992.0" ∧
    significant "18014398509481990.0".toList < significant "18014398509481992.0".toList := by
  decide +kernel

end Binary64

end Tudlo
