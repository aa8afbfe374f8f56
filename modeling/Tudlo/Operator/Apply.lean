import Tudlo.Binary64.Arithmetic
import Tudlo.Fault

/-!
# Applying operators

What an operator makes of values that are already computed. The result is a
value or the cause of a fault; where the fault is blamed is known to the
caller only.

* `Value.promote`: a number as a decimal. Two integers are computed with as
  integers, and any other pair of numbers is promoted first, the left one
  before the right one.
* `BinaryOp.arithmetic`, `BinaryOp.comparison`, `BinaryOp.logic`: the three
  families. Each refuses the operators of the others.
* `BinaryOp.apply`, `UnaryOp.apply`: any operator.
-/

namespace Tudlo

/-- The value as a decimal. -/
def Value.promote : Value → Except FaultCause Binary64
  | .decimal d => .ok d
  | .integer n =>
    match Integer.toBinary64? n with
    | some d => .ok d
    | none => .error .precisionLoss
  | v => .error (.numberExpected v.kind)

/-- The value of an integer result, which is a fault when it does not fit. -/
def integerResult : Option Int64 → Except FaultCause Value
  | some n => .ok (.integer n)
  | none => .error .overflow

namespace BinaryOp

/-- Arithmetic on two integers. -/
def onIntegers (op : BinaryOp) (a b : Int64) : Except FaultCause Value :=
  match op with
  | .add => integerResult (Integer.add? a b)
  | .sub => integerResult (Integer.sub? a b)
  | .mul => integerResult (Integer.mul? a b)
  | .div => if b = 0 then .error .divisionByZero else integerResult (Integer.div? a b)
  | .rem => if b = 0 then .error .divisionByZero else integerResult (Integer.rem? a b)
  | _ => .error (.kindClash (.outside op .arithmetic))

/-- Arithmetic on two decimals. -/
def onDecimals (op : BinaryOp) (x y : Binary64) : Except FaultCause Value :=
  match op with
  | .add => .ok (.decimal (x.add y))
  | .sub => .ok (.decimal (x.sub y))
  | .mul => .ok (.decimal (x.mul y))
  | .div => if y.isZero then .error .divisionByZero else .ok (.decimal (x.div y))
  | .rem => if y.isZero then .error .divisionByZero else .ok (.decimal (x.rem y))
  | _ => .error (.kindClash (.outside op .arithmetic))

/-- The arithmetic operators. -/
def arithmetic (op : BinaryOp) (left right : Value) : Except FaultCause Value :=
  match left, right with
  | .integer a, .integer b => op.onIntegers a b
  | _, _ =>
    if left.isNumber && right.isNumber then do
      let x ← left.promote
      let y ← right.promote
      op.onDecimals x y
    else .error (.kindClash (.arithmetic op left.kind right.kind))

/-- How two values are ordered, if at all: numbers by size, characters and
    texts by code points, with a character taken as a text of length one. Two
    numbers of which one is not a number are ordered in no way. -/
def ordering (op : BinaryOp) (left right : Value) : Except FaultCause (Option Ordering) :=
  match left, right with
  | .integer a, .integer b => .ok (some (compare a.toInt b.toInt))
  | _, _ =>
    if left.isNumber && right.isNumber then do
      let x ← left.promote
      let y ← right.promote
      return x.compare? y
    else
      match left.asText?, right.asText? with
      | some s, some t => .ok (some (compareOfLessAndEq s t))
      | _, _ => .error (.kindClash (.ordering op left.kind right.kind))

/-- The comparison operators. -/
def comparison (op : BinaryOp) (left right : Value) : Except FaultCause Value :=
  match op with
  | .equal => .ok (.boolean (left.equal right))
  | .notEqual => .ok (.boolean (!left.equal right))
  | .less => do return .boolean ((← op.ordering left right) == some .lt)
  | .greater => do return .boolean ((← op.ordering left right) == some .gt)
  | .lessEqual => do return .boolean ((← op.ordering left right).any Ordering.isLE)
  | .greaterEqual => do return .boolean ((← op.ordering left right).any Ordering.isGE)
  | _ => .error (.kindClash (.outside op .comparison))

/-- The logical operators. -/
def logic (op : BinaryOp) (left right : Value) : Except FaultCause Value :=
  match op with
  | .and => .ok (.boolean (left.truthy && right.truthy))
  | .or => .ok (.boolean (left.truthy || right.truthy))
  | .join => .ok (.text (left.display ++ right.display))
  | _ => .error (.kindClash (.outside op .logic))

/-- What an operator makes of two values. -/
def apply (op : BinaryOp) (left right : Value) : Except FaultCause Value :=
  match op.family with
  | .arithmetic => op.arithmetic left right
  | .comparison => op.comparison left right
  | .logic => op.logic left right

end BinaryOp

/-- What an operator makes of one value. -/
def UnaryOp.apply (op : UnaryOp) (v : Value) : Except FaultCause Value :=
  match op, v with
  | .negate, .integer n => integerResult (Integer.neg? n)
  | .negate, .decimal d => .ok (.decimal d.neg)
  | .plus, .integer n => .ok (.integer n)
  | .plus, .decimal d => .ok (.decimal d)
  | .not, v => .ok (.boolean (!v.truthy))
  | _, v => .error (.numberExpected v.kind)

end Tudlo
