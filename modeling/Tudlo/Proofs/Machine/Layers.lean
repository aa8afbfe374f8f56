import Tudlo.Proofs.Machine.Actions
import Tudlo.Proofs.Machine.Induction

/-!
# What holds of every execution, at every depth

Whatever a statement does, it does by a handful of actions that are put together in a few
ways: one after the other, inside a frame, and round and round. So a property of actions that
these actions have, and that is kept when they are put together, is a property of every
execution.

Some properties depend on where in the environment things happen. They come as a family
(`Exec.Layered`), with one property for each number of frames above a certain place: what is
done inside a frame of its own has to have the next property. A declaration goes to the
innermost frame, so nothing is asked of it when there is no frame above the place. And some
properties depend on the names that are declared, assigned to or read into, which the text of
a statement tells (`Statement.written`).

* `Expr.written`, `Statement.written`, `Block.written`: the names that may be written;
* `Environment.Closed`: properties of the ways to use variables;
* `Block.exec_of_layered`, `Statement.execAll_of_layered`: properties of every execution.
-/

namespace Tudlo

/-! ### The names that a program writes -/

/-- The names that the expression assigns to. -/
def Expr.written : Expr → List String
  | .literal _ _ => []
  | .var _ _ => []
  | .assign name value _ => name :: value.written
  | .unary _ operand _ => operand.written
  | .binary _ left right _ => left.written ++ right.written

mutual

/-- The names that are declared, assigned to or read into by the statement, at any depth. -/
def Statement.written : Statement → List String
  | .declare _ names initial _ => names ++ initial.elim [] Expr.written
  | .print value _ => value.written
  | .read names _ => names
  | .block body => body.written
  | .choose condition whenTrue whenFalse _ =>
    condition.written ++ (whenTrue.written ++ Block.writtenAny whenFalse)
  | .loop initial condition step body _ =>
    initial.written ++ (condition.written ++ (step.written ++ body.written))
  | .compute expr _ => expr.written
  termination_by structural s => s

/-- The names that the statements of the block write. -/
def Block.written : Block → List String
  | ⟨statements, _⟩ => Statement.writtenAll statements
  termination_by structural b => b

/-- The names that the block writes, if there is one. -/
def Block.writtenAny : Option Block → List String
  | none => []
  | some body => body.written
  termination_by structural b => b

/-- The names that the statements write. -/
def Statement.writtenAll : List Statement → List String
  | [] => []
  | s :: rest => s.written ++ Statement.writtenAll rest
  termination_by structural ss => ss

end

/-! ### The use of variables -/

/-- The property is one of looking up names and of assigning to writable ones, and it is kept
    when one is done after the other. -/
structure Environment.Closed (writable : String → Prop)
    (Q : (α : Type) → EStateM Fault Environment α → Prop) : Prop where
  pure {α : Type} (a : α) : Q α (pure a)
  throw {α : Type} (f : Fault) : Q α (throw f)
  /-- What comes second may depend on which results the first can have. -/
  bind {α β : Type} {x : EStateM Fault Environment α} {f : α → EStateM Fault Environment β} :
    Q α x → (∀ a env env', x env = .ok a env' → Q β (f a)) → Q β (x >>= f)
  resolve (name : String) (pos : Position) : Q Variable (resolve name pos)
  write {name : String} (hn : writable name) (value : Value) (pos : Position) :
    Q Unit (write name value pos)

section Variables

variable {writable : String → Prop} {Q : (α : Type) → EStateM Fault Environment α → Prop}

theorem blame_of_closed (h : Environment.Closed writable Q) {α : Type} (pos : Position)
    (r : Except FaultCause α) : Q α (blame pos r) := by
  cases r with
  | ok a => exact h.pure a
  | error cause => exact h.throw _

theorem Expr.eval_of_closed (h : Environment.Closed writable Q) {e : Expr}
    (hw : ∀ name ∈ e.written, writable name) : Q Value e.eval := by
  induction e with
  | literal value pos => exact h.pure value
  | var name pos => exact h.bind (h.resolve name pos) fun _ _ _ _ => h.pure _
  | assign name e pos ih =>
    rw [written, List.forall_mem_cons] at hw
    refine h.bind (ih hw.2) fun value _ _ _ => ?_
    exact h.bind (h.write hw.1 value pos) fun _ _ _ _ => h.pure _
  | unary op e pos ih => exact h.bind (ih hw) fun _ _ _ _ => blame_of_closed h _ _
  | binary op l r pos ihl ihr =>
    rw [written, List.forall_mem_append] at hw
    exact h.bind (ihl hw.1) fun _ _ _ _ => h.bind (ihr hw.2) fun _ _ _ _ => blame_of_closed h _ _

theorem Exec.readFields_of_closed (h : Environment.Closed writable Q) (pos : Position)
    (fields : List (String × List Char)) : Q _ (readFields pos fields) := by
  induction fields with
  | nil => exact h.pure _
  | cons p fields ih =>
    refine h.bind (h.resolve _ _) fun v _ _ _ => ?_
    split
    · exact h.bind ih fun _ _ _ _ => h.pure _
    · exact h.throw _

theorem Exec.writeFields_of_closed (h : Environment.Closed writable Q) (pos : Position)
    {values : List (String × Value)} (hw : ∀ p ∈ values, writable p.1) :
    Q Unit (writeFields pos values) := by
  induction values with
  | nil => exact h.pure _
  | cons p values ih =>
    rw [List.forall_mem_cons] at hw
    exact h.bind (h.write hw.1 _ pos) fun _ _ _ _ => ih hw.2

end Variables

/-! ### Actions on machines -/

namespace Exec

/-- The fields of the next line of input. -/
def nextFields (pos : Position) : Exec (List (List Char)) := do
  return inputFields (← nextLine pos)

/-- The properties are ones of all the actions that statements are made of, and they are kept
    by the ways in which actions are put together. Only writable names are written, and only
    where there is a frame above the place that the properties are about. -/
structure Layered (writable : String → Prop)
    (Q : Nat → (α : Type) → EStateM Fault Environment α → Prop)
    (P : Nat → (α : Type) → Exec α → Prop) : Prop where
  closed (n : Nat) : Environment.Closed writable (Q n)
  pure {n : Nat} {α : Type} (a : α) : P n α (pure a)
  throw {n : Nat} {α : Type} (halt : Halt) : P n α (throw halt)
  bind {n : Nat} {α β : Type} {x : Exec α} {f : α → Exec β} :
    P n α x → (∀ a, P n β (f a)) → P n β (x >>= f)
  executing {n : Nat} (pos : Position) : P n Unit (record (.executing pos))
  received {n : Nat} (count : Nat) : P n Unit (record (.received count))
  onVariables {n : Nat} {α : Type} {x : EStateM Fault Environment α} :
    Q n α x → P n α (onVariables x)
  declare {n : Nat} {names : List String} (hw : ∀ name ∈ names, writable name)
    (type : ScalarType) (value : Value) : P (n + 1) Unit (declare type names value)
  print {n : Nat} (text : String) : P n Unit (print text)
  nextFields {n : Nat} (pos : Position) : P n (List (List Char)) (nextFields pos)
  framed {n : Nat} {α : Type} {x : Exec α} : P (n + 1) α x → P n α (framed x)

namespace Layered

variable {writable : String → Prop} {Q : Nat → (α : Type) → EStateM Fault Environment α → Prop}
  {P : Nat → (α : Type) → Exec α → Prop} {n : Nat}

theorem eval (h : Layered writable Q P) {e : Expr} (hw : ∀ name ∈ e.written, writable name) :
    P n Value (Exec.eval e) :=
  h.onVariables (Expr.eval_of_closed (h.closed n) hw)

/-- Reading into names starts with the fields of the next line. Values are written for the
    names that they were read for, and no others. -/
theorem receive (h : Layered writable Q P) {names : List String}
    (hw : ∀ name ∈ names, writable name) (pos : Position) :
    P n Unit (Exec.receive names pos) := by
  have hr : Exec.receive names pos = (do
      let fields ← Exec.nextFields pos
      if fields.length = names.length then
        Exec.onVariables do
          let values ← readFields pos (names.zip fields)
          writeFields pos values
        record (.received names.length)
      else fail (.fieldCount names.length fields.length) pos) := by
    simp only [Exec.receive, Exec.nextFields, bind_assoc, pure_bind]
  rw [hr]
  refine h.bind (h.nextFields pos) fun fields => ?_
  split
  · refine h.bind (h.onVariables ?_) fun _ => h.received _
    refine (h.closed n).bind (readFields_of_closed (h.closed n) pos _) ?_
    intro values env env' hv
    exact writeFields_of_closed (h.closed n) pos fun p hp =>
      hw p.1 (mem_of_readFields_zip hv p hp)
  · exact h.throw _

theorem composed (h : Layered writable Q P) (limit : Nat) :
    Composed Nat.succ limit limit (.ofProperty P) where
  pure := h.pure
  bind := h.bind
  forget := id
  framed := h.framed
  rounds := rounds_of_exhausted (.ofProperty P) h.pure h.bind (h.throw _)
  executing := h.executing
  print := h.print

/-- A statement may declare names, so it needs a frame to do so. A block brings a frame of its
    own. -/
theorem parts (h : Layered writable Q P) : Translation.refl.Parts Nat.succ (.ofProperty P)
    (fun n _ _ s => 0 < n ∧ ∀ name ∈ s.written, writable name)
    (fun _ _ b => ∀ name ∈ b.written, writable name)
    (fun n _ ss => 0 < n ∧ ∀ name ∈ Statement.writtenAll ss, writable name) where
  declare := by
    rintro n _ _ type names initial pos ⟨hn, hw⟩
    obtain ⟨n, rfl⟩ := Nat.exists_eq_succ_of_ne_zero (Nat.ne_of_gt hn)
    rw [Statement.written, List.forall_mem_append] at hw
    refine ⟨?_, fun value => h.declare hw.1 type value⟩
    rintro e rfl
    exact h.eval hw.2
  print hs := ⟨rfl, h.eval hs.2⟩
  read hs := ⟨rfl, h.receive hs.2 _⟩
  block hs := ⟨rfl, hs.2⟩
  choose := by
    rintro n _ _ condition whenTrue whenFalse pos ⟨-, hw⟩
    rw [Statement.written, List.forall_mem_append, List.forall_mem_append] at hw
    refine ⟨rfl, h.eval hw.1, hw.2.1, ?_⟩
    rintro b rfl
    exact hw.2.2
  loop := by
    rintro n _ _ initial condition step body pos ⟨-, hw⟩
    simp only [Statement.written, List.forall_mem_append] at hw
    obtain ⟨hi, hc, hs, hb⟩ := hw
    exact ⟨rfl, (), (), ⟨n.succ_pos, hi⟩, h.eval hc, ⟨n.succ_pos, hs⟩, hb⟩
  compute hs := ⟨rfl, h.eval hs.2⟩
  body hb := ⟨Nat.succ_pos _, hb⟩
  cons := by
    rintro n _ s rest ⟨hn, hw⟩
    rw [Statement.writtenAll, List.forall_mem_append] at hw
    exact ⟨(), ⟨hn, hw.1⟩, hn, hw.2⟩

end Layered

end Exec

/-! ### Statements -/

section Statements

variable {writable : String → Prop} {Q : Nat → (α : Type) → EStateM Fault Environment α → Prop}
  {P : Nat → (α : Type) → Exec α → Prop}

theorem Block.exec_of_layered (h : Exec.Layered writable Q P) (limit n : Nat) (b : Block)
    (hw : ∀ name ∈ b.written, writable name) : P n Unit (b.exec limit) :=
  Block.exec_of_parts (i := ()) (h.composed limit) h.parts hw

theorem Statement.execAll_of_layered (h : Exec.Layered writable Q P) (limit n : Nat)
    (ss : List Statement) (hw : ∀ name ∈ Statement.writtenAll ss, writable name) :
    P (n + 1) Unit (Statement.execAll limit ss) := by
  obtain ⟨_, hx⟩ := Statement.execAll_of_parts (i := ()) (h.composed limit) h.parts
    ⟨n.succ_pos, hw⟩
  exact hx

end Statements

end Tudlo
