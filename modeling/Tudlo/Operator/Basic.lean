/-!
# Operators

The operators of expressions. A binary operator belongs to one of three
families, which decide on operands in different ways: arithmetic wants
numbers, comparison wants operands it can relate, and logic takes anything.
Joining texts counts as logic, as it takes anything as well.
-/

namespace Tudlo

/-- The operators with one operand. -/
inductive UnaryOp where
  /-- The opposite of a number. -/
  | negate
  /-- A number as it is. -/
  | plus
  /-- The opposite truth value. -/
  | not
  deriving DecidableEq

/-- The sign of an operator with one operand. -/
def UnaryOp.sign : UnaryOp → String
  | .negate => "-"
  | .plus => "+"
  | .not => "DILI"

/-- The operators with two operands. -/
inductive BinaryOp where
  | add
  | sub
  | mul
  | div
  | rem
  | less
  | greater
  | lessEqual
  | greaterEqual
  | equal
  | notEqual
  /-- True when both operands are. -/
  | and
  /-- True when one of the operands is. -/
  | or
  /-- What is printed for both operands, joined into one text. -/
  | join
  deriving DecidableEq

/-- The families of operators with two operands. -/
inductive Family where
  | arithmetic
  | comparison
  | logic
  deriving DecidableEq

namespace BinaryOp

/-- The sign of an operator with two operands. -/
def sign : BinaryOp → String
  | .add => "+"
  | .sub => "-"
  | .mul => "*"
  | .div => "/"
  | .rem => "%"
  | .less => "<"
  | .greater => ">"
  | .lessEqual => "<="
  | .greaterEqual => ">="
  | .equal => "=="
  | .notEqual => "<>"
  | .and => "UG"
  | .or => "O"
  | .join => "&"

/-- The family of an operator. -/
def family : BinaryOp → Family
  | .add | .sub | .mul | .div | .rem => .arithmetic
  | .less | .greater | .lessEqual | .greaterEqual | .equal | .notEqual => .comparison
  | .and | .or | .join => .logic

end BinaryOp

end Tudlo
