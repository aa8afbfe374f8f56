import Tudlo.Decimal.Display

/-!
# Values

A *value* is what an expression comes to. There are five kinds that programs
compute with, and a sixth, the null value, for the absence of one; no program
ever computes it.

Values are looked at in four ways:

* `Value.kind`: the kind, which messages name;
* `Value.truthy`: whether the value counts as true where a condition is asked
  for, which every value does except the null value and the zeros of each
  kind;
* `Value.display`: the text that is printed;
* `Value.equal`: equality, which holds only between values of one kind.

Two texts are printed as something else than themselves. They are how a
program writes a line break (`$`) and a number sign (`[#]`).
-/

namespace Tudlo

/-- The kinds of values. -/
inductive Kind where
  | null
  | integer
  | decimal
  | character
  | text
  | boolean
  deriving DecidableEq

/-- The name of a kind, as messages give it. -/
def Kind.name : Kind → String
  | .null => "null"
  | .integer => "integer"
  | .decimal => "decimal"
  | .character => "character"
  | .text => "text"
  | .boolean => "boolean"

/-- A value. -/
inductive Value where
  | null
  | integer (n : Int64)
  | decimal (d : Binary64)
  | character (c : Char)
  | text (s : String)
  | boolean (b : Bool)
  deriving DecidableEq

namespace Value

/-- The text that is printed as a line break. -/
def lineBreak : String := "$"

/-- The text that is printed as a number sign. -/
def numberSign : String := "[#]"

/-- The word for a truth value. -/
def truthWord (b : Bool) : String :=
  if b then "OO" else "DILI"

/-- The kind of a value. -/
def kind : Value → Kind
  | .null => .null
  | .integer _ => .integer
  | .decimal _ => .decimal
  | .character _ => .character
  | .text _ => .text
  | .boolean _ => .boolean

/-- Whether a value counts as true. The decimal that is not a number does. -/
def truthy : Value → Bool
  | .null => false
  | .integer n => n != 0
  | .decimal d => !d.isZero
  | .character c => c != '\x00'
  | .text s => s != ""
  | .boolean b => b

/-- Whether a value is an integer or a decimal. -/
def isNumber : Value → Bool
  | .integer _ => true
  | .decimal _ => true
  | _ => false

/-- The text inside a character or a text. -/
def asText? : Value → Option String
  | .character c => some (String.singleton c)
  | .text s => some s
  | _ => none

/-- What is printed for a value. -/
def display : Value → String
  | .null => "WALA"
  | .integer n => n.toInt.repr
  | .decimal d => d.display
  | .character c => String.singleton c
  | .text s => if s = lineBreak then "\n" else if s = numberSign then "#" else s
  | .boolean b => truthWord b

/-- Whether two values are of one kind and equal. Decimals are compared as
    numbers. -/
def equal : Value → Value → Bool
  | .decimal x, .decimal y => x.equal y
  | v, w => v == w

/-- Only the null value and the zeros of each kind do not count as true. -/
theorem truthy_eq_false_iff (v : Value) :
    v.truthy = false ↔ v = .null ∨ v = .integer 0 ∨ (∃ d, v = .decimal d ∧ d.isZero = true) ∨
      v = .character '\x00' ∨ v = .text "" ∨ v = .boolean false := by
  cases v <;> simp [truthy]

end Value

end Tudlo
