import Tudlo.Decimal.Numeral
import Tudlo.Integer
import Tudlo.Value

/-!
# Declared types

A variable is declared with one of four types. The type decides the value that
the variable starts with when the declaration gives none (`zero`), and how a
field of input is read into the variable (`read?`). It does not restrict what
is assigned to the variable later.
-/

namespace Tudlo

/-- The types a variable can be declared with. -/
inductive ScalarType where
  | integer
  | character
  | boolean
  | decimal
  deriving DecidableEq

namespace ScalarType

/-- The word that declares the type. -/
def word : ScalarType → String
  | .integer => "NUMERO"
  | .character => "LETRA"
  | .boolean => "TINUOD"
  | .decimal => "TIPIK"

/-- The value of a variable that is declared without one. -/
def zero : ScalarType → Value
  | .integer => .integer 0
  | .character => .character '\x00'
  | .boolean => .boolean false
  | .decimal => .decimal (.zero false)

/-- The value that the characters `cs` are read as, if they are well formed for
    the type: a character is exactly one character, a truth value is one of the
    two words, and the numbers are those of `Tudlo.Numeral`. -/
def read? (cs : List Char) : ScalarType → Option Value
  | .integer => (Numeral.integer? cs).bind fun n => (Integer.narrow? n).map .integer
  | .character =>
    match cs with
    | [c] => some (.character c)
    | _ => none
  | .boolean =>
    if cs = (Value.truthWord true).toList then some (.boolean true)
    else if cs = (Value.truthWord false).toList then some (.boolean false)
    else none
  | .decimal => (Numeral.decimal? cs).map .decimal

/-- The kind of the values that the type stands for. -/
def kind : ScalarType → Kind
  | .integer => .integer
  | .character => .character
  | .boolean => .boolean
  | .decimal => .decimal

/-- A variable starts with a value of the kind it is declared for. -/
@[simp] theorem kind_zero (t : ScalarType) : t.zero.kind = t.kind := by
  cases t <;> rfl

/-- What is read for a type is a value of its kind. -/
theorem kind_of_read? {t : ScalarType} {cs : List Char} {v : Value} (h : t.read? cs = some v) :
    v.kind = t.kind := by
  cases t with
  | integer =>
    simp only [read?, Option.bind_eq_some_iff, Option.map_eq_some_iff] at h
    obtain ⟨_, _, _, _, rfl⟩ := h
    rfl
  | character =>
    simp only [read?] at h
    split at h
    · injection h with h
      subst h
      rfl
    · contradiction
  | boolean =>
    simp only [read?] at h
    split at h
    · injection h with h
      subst h
      rfl
    · split at h
      · injection h with h
        subst h
        rfl
      · contradiction
  | decimal =>
    simp only [read?, Option.map_eq_some_iff] at h
    obtain ⟨_, _, rfl⟩ := h
    rfl

end ScalarType

end Tudlo
