import Tudlo.Diagnostic
import Tudlo.Operator.Basic
import Tudlo.ScalarType

/-!
# Faults

A *fault* is what stops a running program. Its cause says what could not be
done, with the operator, kinds, names or input that explain it.
-/

namespace Tudlo

/-- How the operands of an operator can be of the wrong kinds, or the operator
    of the wrong family. -/
inductive KindClash where
  /-- Arithmetic on something that is not a number. -/
  | arithmetic (op : BinaryOp) (left right : Kind)
  /-- An ordering of values that are not ordered. -/
  | ordering (op : BinaryOp) (left right : Kind)
  /-- An operator that is not of the family it is applied in. -/
  | outside (op : BinaryOp) (wanted : Family)
  deriving DecidableEq

/-- What a family calls its operators. -/
def Family.describe : Family → String
  | .arithmetic => "an arithmetic operator"
  | .comparison => "a comparison"
  | .logic => "a logical operator"

/-- A clash in words, without the full stop. -/
def KindClash.describe : KindClash → String
  | .arithmetic op left right =>
    "Cannot use '" ++ op.sign ++ "' on " ++ left.name ++ " and " ++ right.name
  | .ordering op left right =>
    "Cannot compare " ++ left.name ++ " and " ++ right.name ++ " with '" ++ op.sign ++ "'"
  | .outside op wanted => "'" ++ op.sign ++ "' is not " ++ wanted.describe

/-- What can go wrong while a program runs. -/
inductive FaultCause where
  /-- The name is not declared in any frame. -/
  | unknownVariable (name : String)
  /-- A division or remainder by a zero of either kind of number. -/
  | divisionByZero
  /-- An integer result that does not fit. -/
  | overflow
  /-- Operands of kinds that the operator does not take. -/
  | kindClash (clash : KindClash)
  /-- A value where a number is needed. -/
  | numberExpected (found : Kind)
  /-- An integer too large to become a decimal. -/
  | precisionLoss
  /-- No line of input is left. -/
  | inputMissing
  /-- A line of input with the wrong number of fields. -/
  | fieldCount (expected found : Nat)
  /-- A field of input that cannot be read for the variable. -/
  | fieldMalformed (name : String) (expected : ScalarType) (field : String)
  deriving DecidableEq

instance : Explained FaultCause where
  sentence
    | .unknownVariable name => "Unknown variable '" ++ name ++ "'."
    | .divisionByZero => "Division by zero."
    | .overflow => "Integer overflow while trying to compute result."
    | .kindClash clash => "Type error: " ++ clash.describe ++ "."
    | .numberExpected found => "Expected number, found " ++ found.name ++ "."
    | .precisionLoss => "Integer is too large to convert to a decimal."
    | .inputMissing => "No input available for DAWAT."
    | .fieldCount expected found =>
      "DAWAT expects " ++ expected.repr ++ " value(s), but received " ++ found.repr ++ "."
    | .fieldMalformed name expected field =>
      "Input '" ++ field ++ "' is not a valid " ++ expected.word ++ " for '" ++ name ++ "'."

/-- A fault: its cause, and the position of what the program was doing. -/
abbrev Fault := Diagnostic FaultCause

end Tudlo
