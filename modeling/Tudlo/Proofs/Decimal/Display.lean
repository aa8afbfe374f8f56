import Tudlo.Proofs.Decimal.Shortest
import Tudlo.Proofs.Token.Separation

/-!
# Displayed decimals are read back

A finite decimal is displayed as digits, a point and more digits, after a minus sign for a
negative one. The two ways to find the digits have this form in common: a magnitude is
displayed as a decimal with at least one place (`displayed`), and it is the magnitude nearest
to this decimal (`isNearest_displayed`).

The main statement, `shown_display`, is about the stored forms: each one of a finite number is
found again, bit for bit, in the text that is displayed for it.
-/

namespace Tudlo

/-! ### Decimals written out -/

namespace Numeral

/-- Places divide the digits by powers of ten. -/
theorem worth_ofDigits (negative : Bool) (whole fraction : List Char) :
    (ofDigits negative whole fraction 0).worth =
      Binary64.scaled (natOf (whole ++ fraction)) fraction.length := by
  rw [worth, ofDigits, Binary64.scaled, zero_sub, zpow_neg, zpow_natCast, div_eq_mul_inv]

end Numeral

namespace Binary64

open Numeral

variable {rank digits places : Nat}

/-- A decimal with some places is written as digits, a point and as many digits as places. -/
theorem exists_positional (digits : Nat) (hp : 0 < places) :
    ∃ whole fraction, IsDigits whole ∧ IsDigits fraction ∧ fraction.length = places ∧
      natOf (whole ++ fraction) = digits ∧
      (positional digits places).toList = whole ++ '.' :: fraction := by
  have hlen : (Nat.toDigits 10 (digits % 10 ^ places)).length ≤ places :=
    (Nat.length_toDigits_le_iff (by decide) hp).2 (Nat.mod_lt _ (Nat.pow_pos (by decide)))
  have hpad : ((Nat.toDigits 10 (digits % 10 ^ places)).leftpad places '0').length = places := by
    rw [List.length_leftpad, Nat.max_eq_left hlen]
  refine ⟨Nat.toDigits 10 (digits / 10 ^ places), _, isDigits_toDigits _,
    isDigits_leftpad (isDigits_toDigits (digits % 10 ^ places)) places, hpad, ?_, ?_⟩
  · rw [natOf_append, hpad, natOf_leftpad, natOf_toDigits, natOf_toDigits]
    exact Nat.div_add_mod' digits (10 ^ places)
  · rw [positional, String.toList_append, String.toList_append, toList_repr, String.toList_ofList,
      String.toList_ofList, List.append_assoc]
    rfl

/-! ### Displayed magnitudes -/

theorem displayed_of_dvd (h : one ∣ units rank) : displayed rank = (units rank / one * 10, 1) :=
  if_pos (Nat.mod_eq_zero_of_dvd h)

theorem displayed_of_not_dvd (h : ¬ one ∣ units rank) : displayed rank = shortest rank :=
  if_neg fun hm => h (Nat.dvd_of_mod_eq_zero hm)

theorem displayed_pos (rank : Nat) : 0 < (displayed rank).2 := by
  by_cases h : one ∣ units rank
  · rw [displayed_of_dvd h]
    exact Nat.one_pos
  · rw [displayed_of_not_dvd h]
    exact shortest_pos h

theorem magnitude_of_dvd (h : one ∣ units rank) : magnitude rank = (units rank / one : Nat) :=
  magnitude_of_units (Nat.div_mul_cancel h).symm

/-- A magnitude is the nearest one to the decimal that it is displayed as. -/
theorem isNearest_displayed (rank : Nat) :
    IsNearest (scaled (displayed rank).1 (displayed rank).2) rank := by
  by_cases h : one ∣ units rank
  · have hs : scaled (units rank / one * 10) 1 = magnitude rank := by
      rw [magnitude_of_dvd h, ← scaled_zero]
      exact scaled_mul_pow _ 0 1
    rw [displayed_of_dvd h, hs]
    exact isNearest_magnitude rank
  · rw [displayed_of_not_dvd h]
    exact isNearest_shortest rank

/-- A finite number is displayed as digits, a point and more digits, after its sign. These
    digits are the numeral that the number is nearest to. -/
theorem exists_display (negative : Bool) (rank : Fin infinityRank) :
    ∃ whole fraction, IsDigits whole ∧ IsDigits fraction ∧
      natOf (whole ++ fraction) = (displayed rank).1 ∧
      (display (.finite negative rank)).toList =
        (signText negative).toList ++ (whole ++ '.' :: fraction) ∧
      (ofDigits negative whole fraction 0).toBinary64 = .finite negative rank := by
  obtain ⟨whole, fraction, hw, hf, hlen, hnat, htext⟩ :=
    exists_positional (displayed rank).1 (displayed_pos rank)
  refine ⟨whole, fraction, hw, hf, hnat, ?_, ?_⟩
  · rw [display, String.toList_append, magnitudeText, htext]
  · refine toBinary64_eq_finite_iff.2 ⟨rfl, ?_⟩
    rw [worth_ofDigits, hnat, hlen]
    exact isNearest_displayed rank

/-! ### Stored forms -/

/-- Whether the sign bit is set. -/
def signBit (bits : UInt64) : Bool :=
  signWeight ≤ bits.toNat

/-- The bits are the stored form of a finite number. -/
def IsFinite (bits : UInt64) : Prop :=
  bits.toNat % signWeight < infinityRank

instance (bits : UInt64) : Decidable (IsFinite bits) :=
  inferInstanceAs (Decidable (_ < _))

theorem exists_ofBits {bits : UInt64} (h : IsFinite bits) :
    ∃ rank : Fin infinityRank, ofBits bits = .finite (signBit bits) rank ∧
      bits.toNat = (signBit bits).toNat * signWeight + rank := by
  have hlt : bits.toNat < 2 * signWeight := bits.toNat_lt
  refine ⟨⟨bits.toNat % signWeight, h⟩, ?_, ?_⟩
  · have hr : bits.toNat % signWeight ≤ infinityRank := Nat.le_of_lt h
    simp only [ofBits, if_pos hr]
    exact dif_pos h
  · show bits.toNat =
      (decide (signWeight ≤ bits.toNat)).toNat * signWeight + bits.toNat % signWeight
    by_cases hs : signWeight ≤ bits.toNat
    · rw [decide_eq_true hs, Bool.toNat_true, Nat.mod_eq_sub_mod hs, Nat.mod_eq_of_lt (by omega)]
      omega
    · rw [decide_eq_false hs, Bool.toNat_false, Nat.mod_eq_of_lt (by omega)]
      omega

end Binary64

/-! ### Reading back -/

/-- The stored form is found again in the text. -/
structure Shown (bits : UInt64) (text : String) : Prop where
  /-- The text is digits, a point and more digits, after a minus sign if the sign bit is set. -/
  form : ∃ whole fraction, IsDigits whole ∧ IsDigits fraction ∧
    text.toList = (if Binary64.signBit bits then ['-'] else []) ++ (whole ++ '.' :: fraction)
  /-- The text is read into a variable of the type as these bits. -/
  read : ∃ d, ScalarType.decimal.read? text.toList = some (.decimal d) ∧ d.toBits = bits
  /-- In a program the text is a literal for these bits, unless there is a sign. -/
  scanned : Binary64.signBit bits = false → ∃ d, d.toBits = bits ∧
    scan text = .ok [⟨.literal (.decimal d), text, .start⟩,
      ⟨.ending, "", Position.start.after text.toList⟩]

open Binary64 in
/-- The stored form of a finite number, bit for bit, is found again in the text that is
    displayed for the number. -/
theorem shown_display {bits : UInt64} (h : IsFinite bits) :
    Shown bits (Value.decimal (ofBits bits)).display := by
  obtain ⟨rank, hof, hrank⟩ := exists_ofBits h
  have hbits : (Binary64.finite (signBit bits) rank).toBits = bits := by
    rw [toBits, ← hrank, UInt64.ofNat_toNat]
  obtain ⟨whole, fraction, hw, hf, -, htext, hread⟩ := exists_display (signBit bits) rank
  rw [hof]
  have hdec := Numeral.decimal?_signText (signBit bits) hw hf
  rw [← htext, hread] at hdec
  refine ⟨⟨whole, fraction, hw, hf, ?_⟩, ⟨_, ?_, hbits⟩, fun hs => ⟨_, hbits, ?_⟩⟩
  · refine htext.trans (congrArg (· ++ _) ?_)
    cases signBit bits <;> rfl
  · exact congrArg (Option.map Value.decimal) hdec
  · -- Without a sign the text is one word.
    rw [hs] at hdec htext ⊢
    have hform := htext.trans (List.nil_append (whole ++ '.' :: fraction))
    rw [hform] at hdec
    have hscan := Lexeme.scan_word (.decimal hw hf hdec)
    rwa [← hform, String.ofList_toList] at hscan

open Binary64 in
/-- Negative zero, and the sum of a tenth and two tenths, which is not quite three tenths. -/
theorem shown_display_inexact :
    IsFinite 0x8000000000000000 ∧ Shown 0x8000000000000000 "-0.0" ∧
    IsFinite 0x3fd3333333333334 ∧ Shown 0x3fd3333333333334 "0.30000000000000004" := by
  have hz : IsFinite 0x8000000000000000 := by decide
  have hs : IsFinite 0x3fd3333333333334 := by decide
  have hzt : (Value.decimal (ofBits 0x8000000000000000)).display = "-0.0" := by decide +kernel
  have hst : (Value.decimal (ofBits 0x3fd3333333333334)).display = "0.30000000000000004" := by
    decide +kernel
  exact ⟨hz, hzt ▸ shown_display hz, hs, hst ▸ shown_display hs⟩

end Tudlo
