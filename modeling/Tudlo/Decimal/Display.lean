import Tudlo.Decimal.Shortest

/-!
# The text of a decimal

Decimals are always written out in full, without an exponent, with a point and
at least one place after it:

* a whole number is written exactly, however large, with the one place `.0`;
* any other finite number is written with the fewest places that read back;
* the infinities are `inf` and `-inf`, and the value that is not a number is
  `NaN`, without a sign;
* the sign of a negative zero is kept.
-/

namespace Tudlo.Binary64

/-- The sign in front of a number, which is empty for a positive one. -/
def signText (negative : Bool) : String :=
  if negative then "-" else ""

/-- The decimal `digits / 10 ^ places` written out, with all its places. -/
def positional (digits places : Nat) : String :=
  (digits / Nat.pow 10 places).repr ++ "." ++
    String.ofList ((Nat.toDigits 10 (digits % Nat.pow 10 places)).leftpad places '0')

/-- The digits and the number of places that the magnitude of rank `rank` is
    displayed with. -/
def displayed (rank : Nat) : Nat × Nat :=
  if units rank % one = 0 then (units rank / one * 10, 1) else shortest rank

/-- The magnitude of rank `rank` written out. -/
def magnitudeText (rank : Nat) : String :=
  let decimal := displayed rank
  positional decimal.1 decimal.2

/-- The text of a value. -/
def display : Binary64 → String
  | .finite negative rank => signText negative ++ magnitudeText rank
  | .infinite negative => signText negative ++ "inf"
  | .nan => "NaN"

end Tudlo.Binary64
