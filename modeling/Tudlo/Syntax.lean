import Tudlo.Operator.Basic
import Tudlo.Position
import Tudlo.ScalarType

/-!
# Programs

A program is a list of statements. Statements and expressions remember the
position of the token they are known by: the operator of an operation, the
name of a variable, the keyword of a statement. That is where faults are
blamed.

Parentheses leave no trace in an expression, and a chain of conditions is
nested: each further condition is the only statement of the block that is done
when the one before fails.
-/

namespace Tudlo

/-- The expressions. -/
inductive Expr where
  /-- A value written out. -/
  | literal (value : Value) (pos : Position)
  /-- The value of a variable. -/
  | var (name : String) (pos : Position)
  /-- An assignment, whose own value is the value assigned. -/
  | assign (name : String) (value : Expr) (pos : Position)
  /-- An operation on one operand. -/
  | unary (op : UnaryOp) (operand : Expr) (pos : Position)
  /-- An operation on two operands. -/
  | binary (op : BinaryOp) (left right : Expr) (pos : Position)
  deriving DecidableEq

mutual

/-- The statements. -/
inductive Statement where
  /-- Declares the names with one type, and one initial value for all. -/
  | declare (type : ScalarType) (names : List String) (initial : Option Expr) (pos : Position)
  /-- Prints a value. -/
  | print (value : Expr) (pos : Position)
  /-- Reads a line of input into the names. -/
  | read (names : List String) (pos : Position)
  /-- Does the statements of a block. -/
  | block (body : Block)
  /-- Does one block when the condition holds, and the other one, if there is
      one, when it does not. -/
  | choose (condition : Expr) (whenTrue : Block) (whenFalse : Option Block) (pos : Position)
  /-- Does the initial clause once, and then, as long as the condition holds,
      the body followed by the step clause. -/
  | loop (initial : Statement) (condition : Expr) (step : Statement) (body : Block)
      (pos : Position)
  /-- Computes an expression for what it assigns. -/
  | compute (expr : Expr) (pos : Position)

/-- A block: statements with a frame of their own. -/
structure Block where
  /-- The statements of the block. -/
  statements : List Statement
  /-- Where the block starts. -/
  pos : Position

end

/-- A program. -/
abbrev Program := List Statement

/-- The position that an expression is known by. -/
def Expr.pos : Expr → Position
  | .literal _ pos => pos
  | .var _ pos => pos
  | .assign _ _ pos => pos
  | .unary _ _ pos => pos
  | .binary _ _ _ pos => pos

/-- The position that a statement is known by. -/
def Statement.pos : Statement → Position
  | .declare _ _ _ pos => pos
  | .print _ pos => pos
  | .read _ pos => pos
  | .block body => body.pos
  | .choose _ _ _ pos => pos
  | .loop _ _ _ _ pos => pos
  | .compute _ pos => pos

end Tudlo
