/-!
# Binary floating point on 64 bits

The decimals of the language are the numbers of the binary interchange format
on 64 bits. Every finite magnitude of the format is a whole number of *units*
of 2^-1074, the least positive magnitude, so that the format is described here
with natural numbers only.

The magnitudes are counted in increasing order by their *rank*: zero has rank
`0`, the least positive magnitude has rank `1`, and infinity comes after all
finite ones with rank `infinityRank`. The rank is also what the format stores
below the sign bit, which is why comparing magnitudes is comparing ranks.
Ranks come in binades of `2 ^ 52`. In the first two binades consecutive
magnitudes are one unit apart, and in each later binade they are twice as far
apart as in the one before (`units`).

* `Binary64`: a finite value, an infinity, or the value that is not a number;
* `units`: the magnitude of a rank, in units;
* `toBits`, `ofBits`: the stored form;
* `key?`, `compare?`: the order, in which both zeros are the same and the
  value that is not a number has no place.

Rounding and arithmetic are in `Tudlo.Binary64.Rounding` and
`Tudlo.Binary64.Arithmetic`.
-/

namespace Tudlo

namespace Binary64

/-- The number of ranks in a binade. -/
def binade : Nat := Nat.pow 2 52

/-- The rank of infinity, above all finite ranks. -/
def infinityRank : Nat := 2047 * binade

/-- The number of units in the number one. -/
def one : Nat := Nat.pow 2 1074

/-- The magnitude of rank `rank`, in units. The magnitudes of a binade are
    `2 ^ shift` units apart, and the first two binades share the shift zero. -/
def units (rank : Nat) : Nat :=
  let shift := rank / binade - 1
  (rank - shift * binade) * Nat.pow 2 shift

end Binary64

/-- A number of the binary interchange format on 64 bits. Both zeros are
    there, and the values that are not numbers are taken as one. -/
inductive Binary64 where
  /-- The finite value of the given sign and rank. -/
  | finite (negative : Bool) (rank : Fin Binary64.infinityRank)
  /-- The infinity of the given sign. -/
  | infinite (negative : Bool)
  /-- The value that is not a number. -/
  | nan
  deriving DecidableEq

namespace Binary64

/-- The zero of the given sign. -/
def zero (negative : Bool) : Binary64 :=
  .finite negative ⟨0, by decide⟩

/-- The value of the given sign and rank. Every rank from that of infinity on
    stands for infinity. -/
def ofRank (negative : Bool) (rank : Nat) : Binary64 :=
  if h : rank < infinityRank then .finite negative ⟨rank, h⟩ else .infinite negative

/-- The same magnitude with the other sign. -/
def neg : Binary64 → Binary64
  | .finite negative rank => .finite (!negative) rank
  | .infinite negative => .infinite (!negative)
  | .nan => .nan

/-- Whether the value is one of the two zeros. -/
def isZero : Binary64 → Bool
  | .finite _ rank => rank.val == 0
  | _ => false

/-- Whether the value is finite and whole. -/
def isWhole : Binary64 → Bool
  | .finite _ rank => units rank % one == 0
  | _ => false

/-! ### The stored form -/

/-- The weight of the sign bit. -/
def signWeight : Nat := Nat.pow 2 63

/-- The stored form: the sign bit, and the rank below it. -/
def toBits : Binary64 → UInt64
  | .finite negative rank => .ofNat (negative.toNat * signWeight + rank)
  | .infinite negative => .ofNat (negative.toNat * signWeight + infinityRank)
  | .nan => .ofNat (infinityRank + binade / 2)

/-- The value stored as `bits`. Whatever is stored above the rank of infinity
    is not a number. -/
def ofBits (bits : UInt64) : Binary64 :=
  let rank := bits.toNat % signWeight
  if rank ≤ infinityRank then ofRank (signWeight ≤ bits.toNat) rank else .nan

/-! ### The order -/

/-- The integer `magnitude`, or its opposite. -/
def signed (negative : Bool) (magnitude : Nat) : Int :=
  if negative then -magnitude else magnitude

/-- The place of a value among the ranks of both signs. The zeros share the
    place zero, and the value that is not a number has none. -/
def key? : Binary64 → Option Int
  | .finite negative rank => some (signed negative rank)
  | .infinite negative => some (signed negative infinityRank)
  | .nan => none

/-- How two values compare, unless one of them is not a number. -/
def compare? (x y : Binary64) : Option Ordering :=
  match x.key?, y.key? with
  | some a, some b => some (compare a b)
  | _, _ => none

/-- Whether two values are the same number. The zeros are, and the value that
    is not a number is not even equal to itself. -/
def equal (x y : Binary64) : Bool :=
  x.compare? y == some .eq

/-! ### First facts -/

@[simp] theorem units_zero : units 0 = 0 := by decide

/-- A finite rank is read back as the finite value it was taken from. -/
@[simp] theorem ofRank_val (negative : Bool) (rank : Fin infinityRank) :
    ofRank negative rank = .finite negative rank := by
  simp [ofRank, rank.isLt]

@[simp] theorem ofRank_infinityRank (negative : Bool) :
    ofRank negative infinityRank = .infinite negative := by
  simp [ofRank]

private theorem rank_add_sign_lt (negative : Bool) {rank : Nat} (h : rank < signWeight) :
    negative.toNat * signWeight + rank < UInt64.size := by
  have hn := Bool.toNat_le negative
  have hw : signWeight = 9223372036854775808 := by decide
  have hs : UInt64.size = 18446744073709551616 := rfl
  rw [hw] at h ⊢
  omega

private theorem ofBits_sign_rank (negative : Bool) {rank : Nat} (h : rank ≤ infinityRank) :
    ofBits (.ofNat (negative.toNat * signWeight + rank)) = ofRank negative rank := by
  have hw : rank < signWeight := Nat.lt_of_le_of_lt h (by decide)
  have hn : (UInt64.ofNat (negative.toNat * signWeight + rank)).toNat =
      negative.toNat * signWeight + rank := by
    simpa using Nat.mod_eq_of_lt (rank_add_sign_lt negative hw)
  have hm : (negative.toNat * signWeight + rank) % signWeight = rank := by
    rw [Nat.mul_comm, Nat.mul_add_mod, Nat.mod_eq_of_lt hw]
  have hs : decide (signWeight ≤ negative.toNat * signWeight + rank) = negative := by
    cases negative
    · simpa using hw
    · simp
  simp only [ofBits, hn, hm, hs, if_pos h]

/-- Every value is read back from its stored form. -/
@[simp] theorem ofBits_toBits (x : Binary64) : ofBits x.toBits = x := by
  cases x with
  | finite negative rank =>
    rw [toBits, ofBits_sign_rank negative (Nat.le_of_lt rank.isLt), ofRank_val]
  | infinite negative =>
    rw [toBits, ofBits_sign_rank negative (Nat.le_refl _), ofRank_infinityRank]
  | nan => decide

end Binary64

end Tudlo
