import Tudlo.Environment
import Tudlo.Event
import Tudlo.Fault

/-!
# Machines

A *machine* is the state of a running program: its variables, what it has
printed, the input that is left, and the record of what happened.

Actions on a machine (`Exec`) come to one of three ends. They succeed, they
stop with a fault, or they are given up because a loop went round more often
than it was allowed to. Whatever the end, the machine is left in the state that
it had then, so output before a fault is not lost.
-/

namespace Tudlo

/-- The state of a running program. -/
structure Machine where
  /-- The variables. -/
  env : Environment := {}
  /-- What was printed. -/
  output : String := ""
  /-- The lines of input that are left. -/
  input : List String := []
  /-- What happened, in order. -/
  trace : Array Event := #[]
  deriving DecidableEq

/-- Why an action did not succeed. -/
inductive Halt where
  /-- The program did something that it cannot do. -/
  | fault (f : Fault)
  /-- A loop went round more often than it was allowed to. -/
  | exhausted
  deriving DecidableEq

/-- An action on a machine that gives something of type `α`. -/
abbrev Exec := EStateM Halt Machine

namespace Machine

/-- The machine with one more event on record. -/
def emit (m : Machine) (e : Event) : Machine :=
  { m with trace := m.trace.push e }

/-- The machine with one more frame. -/
def push (m : Machine) : Machine :=
  let env := m.env.push
  { m with env }.emit (.pushed env.depth)

/-- The machine without its innermost frame. -/
def pop (m : Machine) : Machine :=
  let env := m.env.pop
  { m with env }.emit (.popped env.depth)

/-- The output of the machine, and the machine without it. -/
def takeOutput (m : Machine) : String × Machine :=
  (m.output, { m with output := "" })

end Machine

namespace Exec

/-- Records an event. -/
def record (e : Event) : Exec Unit :=
  modify fun m => m.emit e

/-- Stops with a fault at the given position. -/
def fail {α : Type} (cause : FaultCause) (pos : Position) : Exec α :=
  throw (.fault ⟨cause, pos⟩)

/-- Prints. -/
def print (text : String) : Exec Unit :=
  modify fun m => { m with output := m.output ++ text }

/-- An action on the variables only. -/
def onVariables {α : Type} (action : EStateM Fault Environment α) : Exec α := fun m =>
  match action m.env with
  | .ok a env => .ok a { m with env }
  | .error f env => .error (.fault f) { m with env }

/-- An action inside a frame of its own, which is taken away again whatever the
    end of the action is. -/
def framed {α : Type} (action : Exec α) : Exec α := fun m =>
  match action m.push with
  | .ok a m => .ok a m.pop
  | .error halt m => .error halt m.pop

/-- Goes round as long as the condition holds, but asks for the condition at
    most `limit` times. -/
def rounds (condition : Exec Bool) (round : Exec Unit) : (limit : Nat) → Exec Unit
  | 0 => throw .exhausted
  | limit + 1 => do
    if ← condition then
      round
      rounds condition round limit

end Exec

end Tudlo
