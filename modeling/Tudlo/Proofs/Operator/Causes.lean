import Mathlib.Data.Option.Basic
import Tudlo.Operator.Apply

/-!
# Why operators fail

Which causes of faults the operators have, whatever the operands are
(`BinaryOp.CanFail`, `UnaryOp.CanFail`). The branches of the families that refuse the
operators of other families are never reached, and an operator with two operands
never asks for a number in vain: it looks at the kinds of both operands first.

* `BinaryOp.failsOnly_apply`, `UnaryOp.failsOnly_apply`: an operator fails for no
  other cause.
-/

namespace Tudlo

/-! ### Causes -/

/-- Whether the operator asks which operand comes first. -/
def BinaryOp.orders : BinaryOp → Bool
  | .less | .greater | .lessEqual | .greaterEqual => true
  | _ => false

/-- An operator with two operands can fail for this cause. -/
def BinaryOp.CanFail (op : BinaryOp) : FaultCause → Prop
  | .divisionByZero => op = .div ∨ op = .rem
  | .overflow => op.family = .arithmetic
  | .kindClash (.arithmetic op' _ _) => op' = op ∧ op.family = .arithmetic
  | .kindClash (.ordering op' _ _) => op' = op ∧ op.orders = true
  | .precisionLoss => op.family = .arithmetic ∨ op.orders = true
  | _ => False

/-- An operator with one operand can fail for this cause. -/
def UnaryOp.CanFail (op : UnaryOp) : FaultCause → Prop
  | .overflow => op = .negate
  | .numberExpected _ => op = .negate ∨ op = .plus
  | _ => False

section FailsOnly

variable {α β : Type} {P : FaultCause → Prop}

/-- If the result is a fault, then for a cause that `P` holds of. -/
def FailsOnly (P : FaultCause → Prop) (r : Except FaultCause α) : Prop :=
  ∀ cause, r = .error cause → P cause

theorem failsOnly_ok (a : α) : FailsOnly P (.ok a : Except FaultCause α) := by
  intro cause h
  cases h

theorem failsOnly_error {cause : FaultCause} (h : P cause) :
    FailsOnly P (.error cause : Except FaultCause α) := by
  intro cause' h'
  obtain rfl := Except.error.inj h'
  exact h

theorem FailsOnly.bind {x : Except FaultCause α} {f : α → Except FaultCause β}
    (hx : FailsOnly P x) (hf : ∀ a, FailsOnly P (f a)) : FailsOnly P (x >>= f) := by
  cases x with
  | ok a => exact hf a
  | error cause => exact failsOnly_error (hx cause rfl)

theorem failsOnly_ite {p : Prop} [Decidable p] {x y : Except FaultCause α} (hx : FailsOnly P x)
    (hy : FailsOnly P y) : FailsOnly P (if p then x else y) := by
  split
  · exact hx
  · exact hy

theorem failsOnly_integerResult (h : P .overflow) (n : Option Int64) :
    FailsOnly P (integerResult n) := by
  cases n with
  | some n => exact failsOnly_ok _
  | none => exact failsOnly_error h

/-- A number is promoted, unless it is too large. -/
theorem Value.failsOnly_promote {v : Value} (h : P .precisionLoss) (hv : v.isNumber = true) :
    FailsOnly P v.promote := by
  cases v with
  | integer n =>
    rw [Value.promote]
    split
    · exact failsOnly_ok _
    · exact failsOnly_error h
  | decimal d => exact failsOnly_ok _
  | _ => cases hv

/-! ### Operators with two operands -/

namespace BinaryOp

theorem failsOnly_onIntegers {op : BinaryOp} (h : op.family = .arithmetic) (a b : Int64) :
    FailsOnly op.CanFail (op.onIntegers a b) := by
  cases op with
  | add => exact failsOnly_integerResult h _
  | sub => exact failsOnly_integerResult h _
  | mul => exact failsOnly_integerResult h _
  | div => exact failsOnly_ite (failsOnly_error (Or.inl rfl)) (failsOnly_integerResult h _)
  | rem => exact failsOnly_ite (failsOnly_error (Or.inr rfl)) (failsOnly_integerResult h _)
  | _ => cases h

theorem failsOnly_onDecimals {op : BinaryOp} (h : op.family = .arithmetic) (x y : Binary64) :
    FailsOnly op.CanFail (op.onDecimals x y) := by
  cases op with
  | add => exact failsOnly_ok _
  | sub => exact failsOnly_ok _
  | mul => exact failsOnly_ok _
  | div => exact failsOnly_ite (failsOnly_error (Or.inl rfl)) (failsOnly_ok _)
  | rem => exact failsOnly_ite (failsOnly_error (Or.inr rfl)) (failsOnly_ok _)
  | _ => cases h

theorem failsOnly_arithmetic {op : BinaryOp} (h : op.family = .arithmetic) (l r : Value) :
    FailsOnly op.CanFail (op.arithmetic l r) := by
  unfold arithmetic
  split
  · exact failsOnly_onIntegers h _ _
  · split
    · rename_i hn
      rw [Bool.and_eq_true] at hn
      refine (Value.failsOnly_promote (.inl h) hn.1).bind fun x => ?_
      exact (Value.failsOnly_promote (.inl h) hn.2).bind fun y => failsOnly_onDecimals h x y
    · exact failsOnly_error ⟨rfl, h⟩

theorem failsOnly_ordering {op : BinaryOp} (h : op.orders = true) (l r : Value) :
    FailsOnly op.CanFail (op.ordering l r) := by
  unfold ordering
  split
  · exact failsOnly_ok _
  · split
    · rename_i hn
      rw [Bool.and_eq_true] at hn
      refine (Value.failsOnly_promote (.inr h) hn.1).bind fun x => ?_
      exact (Value.failsOnly_promote (.inr h) hn.2).bind fun y => failsOnly_ok _
    · split
      · exact failsOnly_ok _
      · exact failsOnly_error ⟨rfl, h⟩

theorem failsOnly_comparison {op : BinaryOp} (h : op.family = .comparison) (l r : Value) :
    FailsOnly op.CanFail (op.comparison l r) := by
  cases op with
  | equal => exact failsOnly_ok _
  | notEqual => exact failsOnly_ok _
  | less => exact (failsOnly_ordering rfl l r).bind fun _ => failsOnly_ok _
  | greater => exact (failsOnly_ordering rfl l r).bind fun _ => failsOnly_ok _
  | lessEqual => exact (failsOnly_ordering rfl l r).bind fun _ => failsOnly_ok _
  | greaterEqual => exact (failsOnly_ordering rfl l r).bind fun _ => failsOnly_ok _
  | _ => cases h

theorem failsOnly_logic {op : BinaryOp} (h : op.family = .logic) (l r : Value) :
    FailsOnly op.CanFail (op.logic l r) := by
  cases op with
  | and => exact failsOnly_ok _
  | or => exact failsOnly_ok _
  | join => exact failsOnly_ok _
  | _ => cases h

/-- An operator fails for its own causes only. -/
theorem failsOnly_apply (op : BinaryOp) (l r : Value) : FailsOnly op.CanFail (op.apply l r) := by
  unfold apply
  split
  · exact failsOnly_arithmetic ‹_› l r
  · exact failsOnly_comparison ‹_› l r
  · exact failsOnly_logic ‹_› l r

end BinaryOp

/-! ### Operators with one operand -/

theorem UnaryOp.failsOnly_apply (op : UnaryOp) (v : Value) :
    FailsOnly op.CanFail (op.apply v) := by
  cases op with
  | negate =>
    cases v with
    | integer n =>
      have h : UnaryOp.negate.CanFail .overflow := rfl
      exact failsOnly_integerResult h _
    | decimal d => exact failsOnly_ok _
    | _ => exact failsOnly_error (Or.inl rfl)
  | plus =>
    cases v with
    | integer n => exact failsOnly_ok _
    | decimal d => exact failsOnly_ok _
    | _ => exact failsOnly_error (Or.inr rfl)
  | not => exact failsOnly_ok _

end FailsOnly

end Tudlo
