import Tudlo.Binary64.Rounding

/-!
# The shortest decimal that reads back

A finite magnitude of the 64-bit format is the nearest one to many decimals.
Of those with a given number of decimal places, only the two that surround the
magnitude need to be looked at: if any of them reads back as the magnitude,
one of these two does. `shortest` takes the least number of places for which
this happens, and of the two decimals the one that reads back and is nearer,
the upper one of two equally near.

The search always ends, since a unit is 2^-1074 and so every magnitude is
written exactly with 1074 decimal places.
-/

namespace Tudlo.Binary64

/-- Whether the decimal `digits / 10 ^ places` is read as the magnitude of rank
    `rank`. -/
def readsBack (rank digits places : Nat) : Bool :=
  roundRank (digits * one) (Nat.pow 10 places) == rank

/-- The digits of the last decimal with `places` places that is not above the
    magnitude of rank `rank`. -/
def below (rank places : Nat) : Nat :=
  units rank * Nat.pow 10 places / one

/-- The decimal with `places` places that is nearest to the magnitude of rank
    `rank` among those that read back, given by its digits. -/
def withPlaces? (rank places : Nat) : Option Nat :=
  let lower := below rank places
  let above := lower + 1
  let excess := units rank * Nat.pow 10 places % one
  if readsBack rank lower places && (2 * excess < one || !readsBack rank above places) then
    some lower
  else if readsBack rank above places then some above
  else none

/-- The first number of places from `places` on that has a candidate, after the
    candidate. After `budget` numbers without one, `final` gives the candidate. -/
def firstFrom (candidate? : Nat → Option Nat) (final : Nat → Nat) :
    (budget places : Nat) → Nat × Nat
  | 0, places => (final places, places)
  | budget + 1, places =>
    match candidate? places with
    | some digits => (digits, places)
    | none => firstFrom candidate? final budget (places + 1)

/-- The decimal with the fewest places that reads back as the magnitude of rank
    `rank`, given by its digits and places. With 1074 places it is exact. -/
def shortest (rank : Nat) : Nat × Nat :=
  firstFrom (withPlaces? rank) (below rank) 1074 0

end Tudlo.Binary64
