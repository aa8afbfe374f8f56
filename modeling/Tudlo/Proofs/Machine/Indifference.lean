import Tudlo.Proofs.Coupling
import Tudlo.Proofs.Environment.Agreement
import Tudlo.Proofs.Machine.Actions
import Tudlo.Proofs.Machine.Induction

/-!
# Names that a statement does not mention

A statement that does not mention a name cannot tell what the name stands for, and
does nothing to it. So when two machines differ in that name only, executing the
statement on both comes to the same end, with the same output, and leaves machines
that differ in that name only. And each frame has under the name what it had
before, on both sides.

The proof runs the two machines in lockstep and keeps them apart in the name
(`Machine.Apart`). Nothing but the variables can tell them apart, so it is a
matter of looking up, assigning and declaring, and of the frames that come and go.

* `Statement.names`: the names that occur in a statement;
* `Expr.eval_lockstep`, `Statement.exec_lockstep`: expressions and statements;
* `Statement.exec_indifferent`: what this means for two machines.
-/

namespace Tudlo

/-! ### The names in a program -/

/-- The names that occur in the expression. -/
def Expr.names : Expr → List String
  | .literal _ _ => []
  | .var name _ => [name]
  | .assign name value _ => name :: value.names
  | .unary _ operand _ => operand.names
  | .binary _ left right _ => left.names ++ right.names

mutual

/-- The names that occur in the statement: those that are declared, read into or
    used in an expression, at any depth. -/
def Statement.names : Statement → List String
  | .declare _ names initial _ => names ++ initial.elim [] Expr.names
  | .print value _ => value.names
  | .read names _ => names
  | .block body => body.names
  | .choose condition whenTrue whenFalse _ =>
    condition.names ++ (whenTrue.names ++ Block.namesAny whenFalse)
  | .loop initial condition step body _ =>
    initial.names ++ (condition.names ++ (step.names ++ body.names))
  | .compute expr _ => expr.names
  termination_by structural s => s

/-- The names that occur in the statements of the block. -/
def Block.names : Block → List String
  | ⟨statements, _⟩ => Statement.namesAll statements
  termination_by structural b => b

/-- The names that occur in the block, if there is one. -/
def Block.namesAny : Option Block → List String
  | none => []
  | some body => body.names
  termination_by structural b => b

/-- The names that occur in the statements. -/
def Statement.namesAll : List Statement → List String
  | [] => []
  | s :: rest => s.names ++ Statement.namesAll rest
  termination_by structural ss => ss

end

/-! ### Machines that differ in one name -/

namespace Machine

/-- The machines have printed the same, have the same input left, and agree on all
    variables of names other than `x`. -/
structure AgreeBut (x : String) (m n : Machine) : Prop where
  env : m.env.AgreeBut x n.env
  output : m.output = n.output
  input : m.input = n.input

/-- The machines differ in `x` only, and under `x` the frames have `bs` in the one
    and `cs` in the other. -/
structure Apart (x : String) (bs cs : List (Option Variable)) (m n : Machine) : Prop where
  env : m.env.Apart x bs cs n.env
  output : m.output = n.output
  input : m.input = n.input

theorem AgreeBut.apart {x : String} {m n : Machine} (h : m.AgreeBut x n) :
    m.Apart x (m.env.bindings x) (n.env.bindings x) n :=
  ⟨⟨h.env, rfl, rfl⟩, h.output, h.input⟩

theorem Apart.agreeBut {x : String} {bs cs : List (Option Variable)} {m n : Machine}
    (h : m.Apart x bs cs n) : m.AgreeBut x n :=
  ⟨h.env.agree, h.output, h.input⟩

end Machine

variable {x : String} {bs cs : List (Option Variable)}

/-! ### Expressions -/

namespace Environment

variable {name : String}

theorem resolve_lockstep (hn : name ≠ x) (pos : Position) :
    Lockstep (Apart x bs cs) (resolve name pos) (resolve name pos) := by
  intro env env' h
  have hf := h.agree.find?_eq hn
  cases hv : env'.find? name with
  | some v =>
    rw [resolve_of_find? (hf.trans hv), resolve_of_find? hv]
    exact .ok ⟨rfl, h⟩
  | none =>
    rw [resolve_of_none (hf.trans hv), resolve_of_none hv]
    exact .error ⟨rfl, h⟩

theorem write_lockstep (hn : name ≠ x) (value : Value) (pos : Position) :
    Lockstep (Apart x bs cs) (write name value pos) (write name value pos) := by
  intro env env' h
  rcases h.assign? hn value with ⟨ha, hb⟩ | ⟨env₁, env₂, ha, hb, h'⟩
  · rw [write_of_none ha, write_of_none hb]
    exact .error ⟨rfl, h⟩
  · rw [write_of_assign? ha, write_of_assign? hb]
    exact .ok ⟨rfl, h'⟩

end Environment

theorem blame_lockstep {α : Type} (pos : Position) (r : Except FaultCause α) :
    Lockstep (Environment.Apart x bs cs) (blame pos r) (blame pos r) := by
  cases r with
  | ok a => exact .pure a
  | error cause => exact .throw _

/-- An expression that does not mention `x` has the same value on both sides, or
    fails on both for the same reason. -/
theorem Expr.eval_lockstep {e : Expr} (hx : x ∉ e.names) :
    Lockstep (Environment.Apart x bs cs) e.eval e.eval := by
  induction e with
  | literal value pos => exact .pure value
  | var name pos =>
    rw [names, List.mem_singleton] at hx
    exact .bind (Environment.resolve_lockstep (Ne.symm hx) pos) fun _ => .pure _
  | assign name e pos ih =>
    rw [names, List.mem_cons, not_or] at hx
    refine .bind (ih hx.2) fun value => ?_
    exact .bind (Environment.write_lockstep (Ne.symm hx.1) value pos) fun _ => .pure _
  | unary op e pos ih => exact .bind (ih hx) fun _ => blame_lockstep _ _
  | binary op l r pos ihl ihr =>
    rw [names, List.mem_append, not_or] at hx
    exact .bind (ihl hx.1) fun _ => .bind (ihr hx.2) fun _ => blame_lockstep _ _

/-! ### Actions on machines -/

namespace Exec

variable {α : Type}

theorem record_lockstep (e : Event) :
    Lockstep (Machine.Apart x bs cs) (record e) (record e) :=
  .modify fun _ _ h => ⟨h.env, h.output, h.input⟩

theorem print_lockstep (text : String) :
    Lockstep (Machine.Apart x bs cs) (print text) (print text) :=
  .modify fun _ _ h => ⟨h.env, congrArg (· ++ text) h.output, h.input⟩

theorem onVariables_lockstep {a : EStateM Fault Environment α}
    (h : Lockstep (Environment.Apart x bs cs) a a) :
    Lockstep (Machine.Apart x bs cs) (onVariables a) (onVariables a) := by
  intro m n hmn
  have ha := h hmn.env
  rw [onVariables, onVariables]
  generalize a m.env = r, a n.env = r' at ha ⊢
  cases ha with
  | ok hr => exact .ok ⟨hr.1, hr.2, hmn.output, hmn.input⟩
  | error hr => exact .error ⟨congrArg Halt.fault hr.1, hr.2, hmn.output, hmn.input⟩

theorem eval_lockstep {e : Expr} (hx : x ∉ e.names) :
    Lockstep (Machine.Apart x bs cs) (eval e) (eval e) :=
  onVariables_lockstep (Expr.eval_lockstep hx)

theorem declare_lockstep {names : List String} (hx : x ∉ names) (type : ScalarType)
    (value : Value) :
    Lockstep (Machine.Apart x bs cs) (declare type names value) (declare type names value) :=
  .modify fun _ _ h => ⟨h.env.foldl_define hx _, h.output, h.input⟩

theorem nextLine_lockstep (pos : Position) :
    Lockstep (Machine.Apart x bs cs) (nextLine pos) (nextLine pos) := by
  rintro ⟨env, output, input, trace⟩ ⟨env', output', input', trace'⟩ ⟨he, ho, hi⟩
  obtain rfl : input = input' := hi
  cases input with
  | nil => exact .error ⟨rfl, he, ho, rfl⟩
  | cons line rest => exact .ok ⟨rfl, he, ho, rfl⟩

theorem readFields_lockstep (pos : Position) {fields : List (String × List Char)}
    (hx : ∀ p ∈ fields, p.1 ≠ x) :
    Lockstep (Environment.Apart x bs cs) (readFields pos fields) (readFields pos fields) := by
  induction fields with
  | nil => exact .pure _
  | cons p fields ih =>
    rw [List.forall_mem_cons] at hx
    -- The type that the field is read for is that of the variable found.
    refine .bind (Environment.resolve_lockstep hx.1 pos) fun v => ?_
    split
    · exact .bind (ih hx.2) fun _ => .pure _
    · exact .throw _

theorem writeFields_lockstep (pos : Position) {values : List (String × Value)}
    (hx : ∀ p ∈ values, p.1 ≠ x) :
    Lockstep (Environment.Apart x bs cs) (writeFields pos values) (writeFields pos values) := by
  induction values with
  | nil => exact .pure _
  | cons p values ih =>
    rw [List.forall_mem_cons] at hx
    exact .bind (Environment.write_lockstep hx.1 _ pos) fun _ => ih hx.2

theorem receive_lockstep {names : List String} (hx : x ∉ names) (pos : Position) :
    Lockstep (Machine.Apart x bs cs) (receive names pos) (receive names pos) := by
  have hne : ∀ name ∈ names, name ≠ x := fun name hm he => hx (he ▸ hm)
  refine .bind (nextLine_lockstep pos) fun line => ?_
  dsimp only
  split
  · refine .bind (onVariables_lockstep (.bind_of_ok (readFields_lockstep pos ?_) ?_))
      fun _ => record_lockstep _
    · rintro ⟨name, field⟩ hp
      exact hne name (List.of_mem_zip hp).1
    · -- Values are written for the names that they were read for, and no others.
      intro values env env' hv
      exact writeFields_lockstep pos fun p hp => hne p.1 (mem_of_readFields_zip hv p hp)
  · exact .throw _

/-- A frame of its own has nothing under the name while it is there, and leaves the
    others as they are. -/
theorem framed_lockstep {a b : Exec α}
    (h : Lockstep (Machine.Apart x (none :: bs) (none :: cs)) a b) :
    Lockstep (Machine.Apart x bs cs) (framed a) (framed b) := by
  intro m n hmn
  have hb : bs ≠ [] := hmn.env.ne_nil
  have ha := @h m.push n.push ⟨hmn.env.push, hmn.output, hmn.input⟩
  rw [framed, framed]
  generalize a m.push = r, b n.push = r' at ha ⊢
  cases ha with
  | ok hr => exact .ok ⟨hr.1, hr.2.env.pop hb, hr.2.output, hr.2.input⟩
  | error hr => exact .error ⟨hr.1, hr.2.env.pop hb, hr.2.output, hr.2.input⟩

end Exec

/-! ### Statements -/

namespace Exec

/-- The level says what the frames have under `x`, which is nothing in a new frame. -/
abbrev KeptApart (x : String) : Relation (List (Option Variable) × List (Option Variable)) Unit :=
  fun bs _ _ _ a b => Lockstep (Machine.Apart x bs.1 bs.2) a b

theorem keptApart_composed (limit : Nat) :
    Composed (Prod.map (none :: ·) (none :: ·)) limit limit (KeptApart x) where
  pure a := .pure a
  bind := .bind
  forget := id
  framed := framed_lockstep
  rounds := rounds_of_exhausted (KeptApart x) .pure .bind (.throw _)
  executing _ := record_lockstep _
  print := print_lockstep

theorem keptApart_parts : Translation.refl.Parts (Prod.map (none :: ·) (none :: ·)) (KeptApart x)
    (fun _ _ _ s => x ∉ s.names) (fun _ _ b => x ∉ b.names)
    (fun _ _ ss => x ∉ Statement.namesAll ss) where
  declare := by
    rintro _ _ _ type names initial pos hx
    rw [Statement.names, List.mem_append, not_or] at hx
    refine ⟨?_, declare_lockstep hx.1 type⟩
    rintro e rfl
    exact eval_lockstep hx.2
  print hx := ⟨rfl, eval_lockstep hx⟩
  read hx := ⟨rfl, receive_lockstep hx _⟩
  block hx := ⟨rfl, hx⟩
  choose := by
    rintro _ _ _ condition whenTrue whenFalse pos hx
    rw [Statement.names, List.mem_append, List.mem_append, not_or, not_or] at hx
    refine ⟨rfl, eval_lockstep hx.1, hx.2.1, ?_⟩
    rintro b rfl
    exact hx.2.2
  loop := by
    rintro _ _ _ initial condition step body pos hx
    simp only [Statement.names, List.mem_append, not_or] at hx
    obtain ⟨hi, hc, hs, hb⟩ := hx
    exact ⟨rfl, (), (), hi, eval_lockstep hc, hs, hb⟩
  compute hx := ⟨rfl, eval_lockstep hx⟩
  body hx := hx
  cons := by
    rintro _ _ s rest hx
    rw [Statement.namesAll, List.mem_append, not_or] at hx
    exact ⟨(), hx⟩

end Exec

/-- A statement that does not mention `x` is executed in lockstep. -/
theorem Statement.exec_lockstep (limit : Nat) {s : Statement} (hx : x ∉ s.names) :
    Lockstep (Machine.Apart x bs cs) (s.exec limit) (s.exec limit) :=
  Statement.exec_of_parts (n := (bs, cs)) (i := ()) (j := ()) (Exec.keptApart_composed limit)
    Exec.keptApart_parts hx

/-- A statement neither reads nor disturbs a name that it does not mention.

    On two machines that differ in this name only, it comes to the same end, with
    the same output and the same input left, and the machines still differ in this
    name only. Under the name every frame of either machine has what it had. -/
theorem Statement.exec_indifferent (limit : Nat) {s : Statement} {x : String} {m n : Machine}
    (hx : x ∉ s.names) (h : m.AgreeBut x n) :
    SameEnd (fun m' n' => m'.AgreeBut x n' ∧ m'.env.bindings x = m.env.bindings x ∧
      n'.env.bindings x = n.env.bindings x) (s.exec limit m) (s.exec limit n) := by
  refine (Statement.exec_lockstep limit hx h.apart).mono ?_ ?_
  · rintro _ m' _ n' ⟨rfl, ha⟩
    exact ⟨rfl, ha.agreeBut, ha.env.left, ha.env.right⟩
  · rintro _ m' _ n' ⟨rfl, ha⟩
    exact ⟨rfl, ha.agreeBut, ha.env.left, ha.env.right⟩

/-- A loop that reads two lines of input and prints their sums so far. -/
def summing : Statement :=
  .loop (.declare .integer ["i"] (some (.literal (.integer 0) ⟨1, 20⟩)) ⟨1, 10⟩)
    (.binary .less (.var "i" ⟨1, 30⟩) (.literal (.integer 2) ⟨1, 40⟩) ⟨1, 35⟩)
    (.compute (.assign "i" (.binary .add (.var "i" ⟨1, 60⟩) (.literal (.integer 1) ⟨1, 70⟩)
      ⟨1, 65⟩) ⟨1, 50⟩) ⟨1, 50⟩)
    ⟨[.declare .integer ["k"] none ⟨2, 1⟩,
      .read ["k"] ⟨3, 1⟩,
      .compute (.assign "s" (.binary .add (.var "s" ⟨4, 5⟩) (.var "k" ⟨4, 9⟩) ⟨4, 7⟩) ⟨4, 1⟩)
        ⟨4, 1⟩,
      .print (.var "s" ⟨5, 10⟩) ⟨5, 1⟩], ⟨1, 80⟩⟩ ⟨1, 1⟩

/-- A machine to run it on, with `x` a number in the outer frame. -/
def outerNumber : Machine :=
  { env := ⟨⟨[("s", ⟨.integer, .integer 0⟩)]⟩, [⟨[("x", ⟨.integer, .integer 7⟩)]⟩]⟩
    input := ["4", "5"] }

/-- The same machine, but with `x` a letter in the inner frame. -/
def innerLetter : Machine :=
  { env := ⟨⟨[("x", ⟨.character, .character 'q'⟩), ("s", ⟨.integer, .integer 0⟩)]⟩, [⟨[]⟩]⟩
    input := ["4", "5"] }

/-- The loop does the same on both, and leaves each `x` where and what it is. -/
theorem Statement.exec_indifferent_summing :
    "x" ∉ summing.names ∧ outerNumber.AgreeBut "x" innerLetter ∧
    SameEnd (fun m' n' => m'.AgreeBut "x" n' ∧
        m'.env.bindings "x" = outerNumber.env.bindings "x" ∧
        n'.env.bindings "x" = innerLetter.env.bindings "x")
      (summing.exec 3 outerNumber) (summing.exec 3 innerLetter) := by
  have hx : "x" ∉ summing.names := by decide
  have h : outerNumber.AgreeBut "x" innerLetter := by
    refine ⟨.cons ?_ (.cons ?_ .nil), rfl, rfl⟩ <;> intro name hn <;>
      simp [Frame.find?, outerNumber, innerLetter, List.lookup_cons, beq_false_of_ne hn]
  exact ⟨hx, h, Statement.exec_indifferent 3 hx h⟩

end Tudlo
