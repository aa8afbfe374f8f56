import Mathlib.Data.List.Lex
import Mathlib.Data.String.Basic

/-!
# The order of texts

Texts are ordered by their code points, from the first one on. They are stored as bytes,
each code point as one to four of them, and this is done in such a way that the order of
the bytes is the same. The bytes of a smaller code point come first at a byte that the
larger one has as well (`Encodes.precedes`), so that nothing that follows in the two texts
can undo the difference (`Precedes.append_lt`).

* `bytes_lt_iff`: the order of the bytes is the order of the code points.
-/

namespace Tudlo.Text

/-! ### Lists that differ -/

/-- The first numbers in which the lists differ are there in both, and smaller in the first
    one. -/
def Precedes : List Nat → List Nat → Prop
  | m :: ms, n :: ns => m < n ∨ (m = n ∧ Precedes ms ns)
  | _, _ => False

/-- The bytes of numbers below 256. -/
def toBytes (ns : List Nat) : List UInt8 :=
  ns.map UInt8.ofNat

/-- Whatever follows, the first list stays smaller. -/
theorem Precedes.append_lt {ms ns : List Nat} (h : Precedes ms ns) (hm : ∀ m ∈ ms, m < 256)
    (hn : ∀ n ∈ ns, n < 256) (us vs : List UInt8) : toBytes ms ++ us < toBytes ns ++ vs := by
  induction ms generalizing ns with
  | nil => exact h.elim
  | cons m ms ih =>
    cases ns with
    | nil => exact h.elim
    | cons n ns =>
      rw [List.forall_mem_cons] at hm hn
      rcases h with h | ⟨rfl, h⟩
      · exact .rel ((UInt8.ofNat_lt_iff_lt hm.1 hn.1).2 h)
      · exact .cons (ih h hm.2 hn.2)

/-! ### Code points as bytes -/

/-- The bytes of a code point. Those after the first one hold six bits each, and the first
    one tells how many there are. -/
inductive Encodes : Nat → List Nat → Prop
  | one {a : Nat} (ha : a < 128) : Encodes a [a]
  | two {a b : Nat} (ha : 2 ≤ a ∧ a < 32) (hb : b < 64) : Encodes (64 * a + b) [a + 192, b + 128]
  | three {a b c : Nat} (ha : a < 16) (hb : b < 64) (hc : c < 64)
      (h : 2048 ≤ 4096 * a + 64 * b + c) :
      Encodes (4096 * a + 64 * b + c) [a + 224, b + 128, c + 128]
  | four {a b c d : Nat} (ha : a < 8) (hb : b < 64) (hc : c < 64) (hd : d < 64)
      (h : 65536 ≤ 262144 * a + 4096 * b + 64 * c + d) :
      Encodes (262144 * a + 4096 * b + 64 * c + d) [a + 240, b + 128, c + 128, d + 128]

/-- A larger code point has a larger first byte, or else as many bytes, and its digits
    decide. -/
theorem Encodes.precedes {m n : Nat} {ms ns : List Nat} (h : Encodes m ms) (h' : Encodes n ns)
    (hlt : m < n) : Precedes ms ns := by
  cases h <;> cases h' <;> simp only [Precedes] <;> omega

theorem Encodes.lt {m : Nat} {ms : List Nat} (h : Encodes m ms) : ∀ k ∈ ms, k < 256 := by
  intro k hk
  cases h <;> simp only [List.mem_cons, List.not_mem_nil, or_false] at hk <;> omega

/-- A number in digits of six bits. -/
theorem digits (n : Nat) : 64 * (n / 64) + n % 64 = n ∧
    4096 * (n / 4096) + 64 * (n / 64 % 64) + n % 64 = n ∧
    262144 * (n / 262144) + 4096 * (n / 4096 % 64) + 64 * (n / 64 % 64) + n % 64 = n := by
  have h : n / 4096 = n / 64 / 64 := (Nat.div_div_eq_div_mul n 64 64).symm
  have h' : n / 262144 = n / 64 / 64 / 64 := by
    rw [Nat.div_div_eq_div_mul, Nat.div_div_eq_div_mul]
  omega

theorem val_lt (c : Char) : c.val.toNat < 1114112 := by
  rcases c.valid with h | h
  · exact Nat.lt_trans h (by decide)
  · exact h.2

/-- Characters are stored as the bytes of their code points. -/
theorem exists_encodes (c : Char) :
    ∃ ns, Encodes c.val.toNat ns ∧ String.utf8EncodeChar c = toBytes ns := by
  have hlt := val_lt c
  delta String.utf8EncodeChar
  generalize c.val.toNat = n at hlt
  dsimp only
  obtain ⟨h₂, h₃, h₄⟩ := digits n
  -- The digits are those of the number, and the first one is as small as its byte wants it.
  split
  · exact ⟨[n], .one (by omega), rfl⟩
  split
  · have h : Encodes _ [n / 64 + 192, n % 64 + 128] := .two (by omega) (by omega)
    rw [h₂] at h
    rw [Nat.mod_eq_of_lt (by omega : n / 64 < 32)]
    exact ⟨_, h, rfl⟩
  split
  · have h : Encodes _ [n / 4096 + 224, n / 64 % 64 + 128, n % 64 + 128] :=
      .three (by omega) (by omega) (by omega) (by omega)
    rw [h₃] at h
    rw [Nat.mod_eq_of_lt (by omega : n / 4096 < 16)]
    exact ⟨_, h, rfl⟩
  · have h : Encodes _ [n / 262144 + 240, n / 4096 % 64 + 128, n / 64 % 64 + 128, n % 64 + 128] :=
      .four (by omega) (by omega) (by omega) (by omega) (by omega)
    rw [h₄] at h
    rw [Nat.mod_eq_of_lt (by omega : n / 262144 < 8)]
    exact ⟨_, h, rfl⟩

/-! ### Texts -/

/-- The bytes that a text is stored as. -/
def bytes (s : String) : List UInt8 :=
  s.toUTF8.data.toList

theorem bytes_eq (s : String) : bytes s = s.toList.flatMap String.utf8EncodeChar := by
  show s.toByteArray.data.toList = _
  rw [← String.utf8Encode_toList]
  exact List.toList_data_toByteArray

theorem flatMap_encode_lt {cs ds : List Char} (h : cs < ds) :
    cs.flatMap String.utf8EncodeChar < ds.flatMap String.utf8EncodeChar := by
  induction cs generalizing ds with
  | nil =>
    cases ds with
    | nil => exact absurd h (List.not_lt_nil _)
    | cons d ds =>
      obtain ⟨x, xs, hd⟩ := List.exists_cons_of_ne_nil (String.utf8EncodeChar_ne_nil (c := d))
      rw [List.flatMap_cons, hd]
      exact List.nil_lt_cons x _
  | cons c cs ih =>
    cases ds with
    | nil => exact absurd h (List.not_lt_nil _)
    | cons d ds =>
      rw [List.flatMap_cons, List.flatMap_cons]
      rcases List.cons_lt_cons_iff.1 h with hc | ⟨rfl, ht⟩
      · obtain ⟨ms, hm, hms⟩ := exists_encodes c
        obtain ⟨ns, hn, hns⟩ := exists_encodes d
        rw [hms, hns]
        exact (hm.precedes hn hc).append_lt hm.lt hn.lt _ _
      · exact List.append_left_lt (ih ht)

/-- The order of the bytes is the order of the code points. -/
theorem bytes_lt_iff (s t : String) : bytes s < bytes t ↔ s.toList < t.toList := by
  rw [bytes_eq, bytes_eq]
  refine ⟨fun h => ?_, flatMap_encode_lt⟩
  rcases lt_trichotomy s.toList t.toList with hlt | heq | hlt
  · exact hlt
  · rw [heq] at h
    exact absurd h (List.lt_irrefl _)
  · exact absurd (flatMap_encode_lt hlt) (List.lt_asymm h)

end Tudlo.Text
