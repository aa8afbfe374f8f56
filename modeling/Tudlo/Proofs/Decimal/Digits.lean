import Mathlib.Algebra.Order.Ring.Nat
import Mathlib.Data.List.Induction
import Tudlo.Proofs.Token.Spelling

/-!
# Numbers in digits

The digits that a natural number is written with are digits, and they write this number
again (`Numeral.natOf_toDigits`). Their number says between which powers of ten the number
lies (`Numeral.lt_pow_length`, `Numeral.pow_length_le`), and so does the number of any digits
that do not begin with a zero (`Numeral.natOf_lt_pow`, `Numeral.pow_le_natOf`). An integer is
read back from its text, which is its digits after a minus sign for a negative one
(`Numeral.integer?_repr`).
-/

namespace Tudlo.Numeral

variable {d : Char} {ds : List Char}

/-! ### Natural numbers -/

theorem isDigits_toDigits (n : Nat) : IsDigits (Nat.toDigits 10 n) :=
  ⟨Nat.toDigits_ne_nil, fun _ hd => Nat.isDigit_of_mem_toDigits (by decide) (by decide) hd⟩

@[simp] theorem natOf_toDigits (n : Nat) : natOf (Nat.toDigits 10 n) = n :=
  Nat.ofDigitChars_ten_toDigits

theorem lt_pow_length (n : Nat) : n < 10 ^ (Nat.toDigits 10 n).length :=
  (Nat.length_toDigits_le_iff (by decide) Nat.length_toDigits_pos).1 (Nat.le_refl _)

/-- A number other than zero has no digits in vain. -/
theorem pow_length_le {n k : Nat} (hn : n ≠ 0) (hk : k < (Nat.toDigits 10 n).length) :
    10 ^ k ≤ n := by
  rcases Nat.eq_zero_or_pos k with rfl | hpos
  · exact Nat.one_le_iff_ne_zero.2 hn
  · rw [← Nat.not_lt, ← Nat.length_toDigits_le_iff (by decide) hpos, Nat.not_le]
    exact hk

/-! ### Digits that are written -/

theorem toNat_of_isDigit (h : d.isDigit = true) : 48 ≤ d.toNat ∧ d.toNat ≤ 57 := by
  obtain ⟨h0, h9⟩ := Bool.and_eq_true_iff.1 h
  exact ⟨of_decide_eq_true h0, of_decide_eq_true h9⟩

theorem natOf_append (cs ds : List Char) :
    natOf (cs ++ ds) = natOf cs * 10 ^ ds.length + natOf ds := by
  rw [natOf, Nat.ofDigitChars_append, Nat.ofDigitChars_eq_ofDigitChars_zero, Nat.mul_comm]
  rfl

/-- Zeros in front make no difference. -/
theorem natOf_leftpad (k : Nat) (ds : List Char) : natOf (ds.leftpad k '0') = natOf ds := by
  rw [List.leftpad, natOf, Nat.ofDigitChars_append, Nat.ofDigitChars_replicate_zero, Nat.mul_zero]
  rfl

theorem isDigits_leftpad (h : IsDigits ds) (k : Nat) : IsDigits (ds.leftpad k '0') := by
  refine ⟨fun hn => h.1 (List.append_eq_nil_iff.1 hn).2, fun d hd => ?_⟩
  rcases List.mem_append.1 hd with hz | hd
  · rw [List.eq_of_mem_replicate hz]
    rfl
  · exact h.2 d hd

theorem natOf_singleton_lt (h : d.isDigit = true) : natOf [d] < 10 := by
  have hd := toNat_of_isDigit h
  show 10 * 0 + (d.toNat - 48) < 10
  omega

theorem natOf_singleton_pos (h : d.isDigit = true) (hz : d ≠ '0') : 0 < natOf [d] := by
  have hd := toNat_of_isDigit h
  have hne : d.toNat ≠ 48 := fun he => hz (Char.toNat_inj.1 he)
  show 0 < 10 * 0 + (d.toNat - 48)
  omega

theorem natOf_lt_pow (h : ∀ d ∈ ds, d.isDigit = true) : natOf ds < 10 ^ ds.length := by
  induction ds using List.reverseRecOn with
  | nil => exact Nat.one_pos
  | append_singleton ds d ih =>
    have hds := ih fun c hc => h c (List.mem_append_left _ hc)
    have hd := natOf_singleton_lt (h d List.mem_concat_self)
    rw [natOf_append, List.length_append, List.length_singleton, Nat.pow_one, Nat.pow_succ]
    omega

/-- A number is not below the weight of its first digit, if this is not zero. -/
theorem pow_le_natOf (hd : d.isDigit = true) (hz : d ≠ '0') (ds : List Char) :
    10 ^ ds.length ≤ natOf (d :: ds) := by
  have hpos := natOf_singleton_pos hd hz
  rw [← List.singleton_append, natOf_append]
  exact Nat.le_add_right_of_le (Nat.le_mul_of_pos_left _ hpos)

theorem not_ten_dvd_natOf (hd : d.isDigit = true) (hz : d ≠ '0') (ds : List Char) :
    ¬ 10 ∣ natOf (ds ++ [d]) := by
  have hpos := natOf_singleton_pos hd hz
  have hlt := natOf_singleton_lt hd
  rw [natOf_append, List.length_singleton, Nat.pow_one]
  omega

/-! ### Integers -/

theorem toList_repr (n : Nat) : n.repr.toList = Nat.toDigits 10 n := by
  rw [Nat.repr_eq_ofList_toDigits, String.toList_ofList]

/-- Digits after a minus sign write the opposite number. -/
theorem integer?_minus_of_isDigits (h : IsDigits ds) :
    integer? ('-' :: ds) = some (-(natOf ds : Int)) := by
  have hn : natural? ds = some (natOf ds) := by
    rw [natural?, List.all_eq_true.2 h.2, Bool.and_true, List.isEmpty_eq_false_iff.2 h.1]
    rfl
  show (natural? ds).map (Binary64.signed true) = _
  rw [hn]
  rfl

/-- An integer is read back from its text. -/
theorem integer?_repr (n : Int) : integer? n.repr.toList = some n := by
  cases n with
  | ofNat n =>
    show integer? n.repr.toList = _
    rw [toList_repr, integer?_of_isDigits (isDigits_toDigits n), natOf_toDigits]
    rfl
  | negSucc n =>
    show integer? ("-" ++ (n + 1).repr).toList = _
    rw [String.toList_append, toList_repr]
    show integer? ('-' :: Nat.toDigits 10 (n + 1)) = _
    rw [integer?_minus_of_isDigits (isDigits_toDigits (n + 1)), natOf_toDigits]
    rfl

end Tudlo.Numeral
