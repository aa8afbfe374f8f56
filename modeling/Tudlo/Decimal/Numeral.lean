import Tudlo.Binary64.Rounding

/-!
# Decimal numerals

A *numeral* is a number written in base ten: a sign, digits, and a power of
ten they are multiplied by. Numerals are read from text in two shapes. An
integer is an optional sign and at least one digit (`integer?`). A decimal
(`decimal?`) is an optional sign and then either digits with an optional
point among them, and an optional exponent, or one of the words `inf`,
`infinity` and `nan` in any mix of cases. Only the ten ASCII digits are digits,
and nothing may stand before or after.

A numeral denotes the nearest number on 64 bits (`Numeral.toBinary64`). The
exponent of a numeral can be far larger than any exponent of the format, so
numerals that are certainly too large or too small are told apart by the
place of their first digit, before any power of ten is computed.
-/

namespace Tudlo

/-- The number `± digits * 10 ^ exponent`. -/
structure Numeral where
  /-- Whether the number is written with a minus sign. -/
  negative : Bool
  /-- The digits, taken together as one natural number. -/
  digits : Nat
  /-- The power of ten that the digits are multiplied by. -/
  exponent : Int
  deriving DecidableEq

namespace Numeral

/-- The natural number written by the digits `cs`. -/
def natOf (cs : List Char) : Nat :=
  Nat.ofDigitChars 10 cs 0

/-- The numeral with the digits `whole` before the point and `fraction` after
    it, times ten to the power `exponent`. -/
def ofDigits (negative : Bool) (whole fraction : List Char) (exponent : Int) : Numeral :=
  ⟨negative, natOf (whole ++ fraction), exponent - fraction.length⟩

/-- The place of the first digit: the number is less than ten to this power,
    and at least ten to the power before it unless it is zero. -/
def reach (n : Numeral) : Int :=
  n.exponent + (Nat.toDigits 10 n.digits).length

/-- The number on 64 bits nearest to the numeral. From `10 ^ 400` on numbers
    round to infinity, and below `10 ^ -400` to zero. -/
def toBinary64 (n : Numeral) : Binary64 :=
  if n.digits = 0 ∨ n.reach < -400 then .zero n.negative
  else if 400 < n.reach then .infinite n.negative
  else match n.exponent with
    | .ofNat e => .ofQuotient n.negative (n.digits * Nat.pow 10 e) 1
    | .negSucc e => .ofQuotient n.negative n.digits (Nat.pow 10 (e + 1))

/-! ### Reading -/

/-- The sign in front of `cs`, if any, and what follows it. The sign is given
    as whether it is a minus sign. -/
def splitSign : List Char → Bool × List Char
  | '-' :: cs => (true, cs)
  | '+' :: cs => (false, cs)
  | cs => (false, cs)

/-- The natural number that `cs` writes, when `cs` is digits only, and at least
    one. -/
def natural? (cs : List Char) : Option Nat :=
  if !cs.isEmpty && cs.all Char.isDigit then some (natOf cs) else none

/-- The integer that `cs` writes: an optional sign and at least one digit. -/
def integer? (cs : List Char) : Option Int :=
  let (negative, rest) := splitSign cs
  (natural? rest).map (Binary64.signed negative)

/-- The exponent that `cs` writes: nothing at all, or an `e` in either case
    and an integer. -/
def exponent? : List Char → Option Int
  | [] => some 0
  | c :: cs => if c.toLower = 'e' then integer? cs else none

/-- The numeral that `cs` writes after its sign: digits with an optional point,
    of which there is at least one, and an optional exponent. -/
def unsigned? (negative : Bool) (cs : List Char) : Option Numeral :=
  let whole := cs.takeWhile Char.isDigit
  let (fraction, rest) := match cs.dropWhile Char.isDigit with
    | '.' :: ds => (ds.takeWhile Char.isDigit, ds.dropWhile Char.isDigit)
    | ds => ([], ds)
  if whole.isEmpty && fraction.isEmpty then none
  else (exponent? rest).map (ofDigits negative whole fraction)

/-- The number on 64 bits that `cs` writes. -/
def decimal? (cs : List Char) : Option Binary64 :=
  let (negative, rest) := splitSign cs
  let word := String.ofList (rest.map Char.toLower)
  if word = "inf" || word = "infinity" then some (.infinite negative)
  else if word = "nan" then some .nan
  else (unsigned? negative rest).map toBinary64

end Numeral

end Tudlo
