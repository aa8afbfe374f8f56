import Tudlo.Environment
import Tudlo.Operator.Apply
import Tudlo.Syntax

/-!
# Evaluation of expressions

An expression is computed in an environment, which it changes only by its
assignments. Operands are computed from left to right, and always all of them:
no operator decides on its left operand alone.

A fault is blamed on the position of the expression that could not be
computed, and assignments done before it stay done.
-/

namespace Tudlo

/-- A result whose failure is blamed on the given position. -/
def blame {α : Type} (pos : Position) : Except FaultCause α → EStateM Fault Environment α
  | .ok a => return a
  | .error cause => throw ⟨cause, pos⟩

namespace Environment

/-- The variable that a name stands for, which is a fault if there is none. -/
def resolve (name : String) (pos : Position) : EStateM Fault Environment Variable := do
  match (← get).find? name with
  | some v => return v
  | none => throw ⟨.unknownVariable name, pos⟩

/-- Assigns to the variable that a name stands for, which is a fault if there
    is none. -/
def write (name : String) (value : Value) (pos : Position) : EStateM Fault Environment Unit := do
  match (← get).assign? name value with
  | some env => set env
  | none => throw ⟨.unknownVariable name, pos⟩

end Environment

/-- The value of an expression. -/
def Expr.eval : Expr → EStateM Fault Environment Value
  | .literal value _ => return value
  | .var name pos => do return (← Environment.resolve name pos).value
  | .assign name expr pos => do
    let value ← expr.eval
    Environment.write name value pos
    return value
  | .unary op operand pos => do
    let value ← operand.eval
    blame pos (op.apply value)
  | .binary op left right pos => do
    let l ← left.eval
    let r ← right.eval
    blame pos (op.apply l r)

end Tudlo
