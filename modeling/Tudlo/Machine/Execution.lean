import Tudlo.Input
import Tudlo.Machine.Basic
import Tudlo.Machine.Evaluation

/-!
# Execution of statements

Statements are executed one after the other on a machine. Execution follows
the structure of the program, and only loops can go on forever. So there is a
limit to how often each loop may ask for its condition, and it is the same for
all of them. A program that ends does so for every large enough limit, and the
limit does not show in what it does.

Every statement is recorded before it is executed, the clauses of loops
included.
-/

namespace Tudlo

namespace Exec

/-- The value of an expression. -/
def eval (expr : Expr) : Exec Value :=
  onVariables expr.eval

/-- Declares the names, each with the given type and value. -/
def declare (type : ScalarType) (names : List String) (value : Value) : Exec Unit :=
  modify fun m =>
    { m with env := names.foldl (fun env name => env.define name ⟨type, value⟩) m.env }

/-- The next line of input. -/
def nextLine (pos : Position) : Exec String := do
  let m ← get
  match m.input with
  | line :: rest =>
    set { m with input := rest }
    return line
  | [] => fail .inputMissing pos

/-- The values that the fields are read as, each for the variable of the name
    beside it. -/
def readFields (pos : Position) :
    List (String × List Char) → EStateM Fault Environment (List (String × Value))
  | [] => return []
  | (name, field) :: rest => do
    let v ← Environment.resolve name pos
    match v.type.read? field with
    | some value => return (name, value) :: (← readFields pos rest)
    | none => throw ⟨.fieldMalformed name v.type (String.ofList field), pos⟩

/-- Assigns each value to the variable of the name beside it. -/
def writeFields (pos : Position) : List (String × Value) → EStateM Fault Environment Unit
  | [] => return ()
  | (name, value) :: rest => do
    Environment.write name value pos
    writeFields pos rest

/-- Reads a line of input into the names. All fields are read before anything
    is assigned, so a line that cannot be read for all of the names changes
    none of the variables. -/
def receive (names : List String) (pos : Position) : Exec Unit := do
  let fields := inputFields (← nextLine pos)
  if fields.length = names.length then
    onVariables do
      let values ← readFields pos (names.zip fields)
      writeFields pos values
    record (.received names.length)
  else fail (.fieldCount names.length fields.length) pos

end Exec

mutual

/-- Executes a statement. -/
def Statement.exec (limit : Nat) : Statement → Exec Unit
  | .declare type names initial pos => do
    Exec.record (.executing pos)
    let value ← match initial with
      | some expr => Exec.eval expr
      | none => pure type.zero
    Exec.declare type names value
  | .print value pos => do
    Exec.record (.executing pos)
    let v ← Exec.eval value
    Exec.print v.display
  | .read names pos => do
    Exec.record (.executing pos)
    Exec.receive names pos
  | .block body => do
    Exec.record (.executing body.pos)
    body.exec limit
  | .choose condition whenTrue whenFalse pos => do
    Exec.record (.executing pos)
    if (← Exec.eval condition).truthy then whenTrue.exec limit
    else Block.execAny limit whenFalse
  | .loop initial condition step body pos => do
    Exec.record (.executing pos)
    Exec.framed do
      initial.exec limit
      Exec.rounds (do return (← Exec.eval condition).truthy)
        (do body.exec limit; step.exec limit) limit
  | .compute expr pos => do
    Exec.record (.executing pos)
    let _ ← Exec.eval expr
  termination_by structural s => s

/-- Executes the statements of a block in a frame of their own. -/
def Block.exec (limit : Nat) : Block → Exec Unit
  | ⟨statements, _⟩ => Exec.framed (Statement.execAll limit statements)
  termination_by structural b => b

/-- Executes a block, if there is one. -/
def Block.execAny (limit : Nat) : Option Block → Exec Unit
  | none => pure ()
  | some body => body.exec limit
  termination_by structural b => b

/-- Executes statements one after the other. -/
def Statement.execAll (limit : Nat) : List Statement → Exec Unit
  | [] => pure ()
  | s :: rest => do
    s.exec limit
    Statement.execAll limit rest
  termination_by structural ss => ss

end

/-- Executes a program, and records how it ended. -/
def Program.exec (limit : Nat) (program : Program) : Exec Unit := fun m =>
  match Statement.execAll limit program m with
  | .ok _ m => .ok () (m.emit (.finished m.output.utf8ByteSize true))
  | .error (.fault f) m => .error (.fault f) (m.emit (.finished m.output.utf8ByteSize false))
  | .error .exhausted m => .error .exhausted m

end Tudlo
