import Tudlo.Proofs.Machine.Actions
import Tudlo.Proofs.Machine.Induction
import Tudlo.Proofs.Operator.Causes

/-!
# What is blamed for a fault

A program is stopped by a fault at the position of one of its *nodes*: an expression,
or a statement that reads input. And the cause is one that this node can have, so no
fault is blamed on a part of the program that had nothing to do with it
(`Program.blamedOn_of_exec`).

* `Statement.nodes`: the nodes of a statement, at any depth;
* `Node.CanFail`: the causes that a node can have;
* `FailsWith`: what is known about how an action fails, and how this is put together
  from its parts.
-/

namespace Tudlo

/-! ### Nodes -/

/-- A part of a program that a fault can be blamed on. -/
inductive Node where
  /-- An expression, on its own or inside another one. -/
  | expr (e : Expr)
  /-- A statement that reads a line of input into the names. -/
  | read (names : List String) (pos : Position)

/-- The position that a node is known by. -/
def Node.pos : Node → Position
  | .expr e => e.pos
  | .read _ pos => pos

/-- The expression itself can fail for this cause, and not one inside it. -/
def Expr.CanFail : Expr → FaultCause → Prop
  | .literal _ _, _ => False
  | .var name _, cause => cause = .unknownVariable name
  | .assign name _ _, cause => cause = .unknownVariable name
  | .unary op _ _, cause => op.CanFail cause
  | .binary op _ _ _, cause => op.CanFail cause

/-- Reading a line of input into the names can fail for this cause. -/
def FaultCause.OfReading (names : List String) : FaultCause → Prop
  | .unknownVariable name => name ∈ names
  | .inputMissing => True
  | .fieldCount expected _ => expected = names.length
  | .fieldMalformed name _ _ => name ∈ names
  | _ => False

/-- The node can fail for this cause. -/
def Node.CanFail : Node → FaultCause → Prop
  | .expr e, cause => e.CanFail cause
  | .read names _, cause => cause.OfReading names

/-- The expression and those inside it. -/
def Expr.nodes : Expr → List Node
  | .literal value pos => [.expr (.literal value pos)]
  | .var name pos => [.expr (.var name pos)]
  | .assign name value pos => .expr (.assign name value pos) :: value.nodes
  | .unary op operand pos => .expr (.unary op operand pos) :: operand.nodes
  | .binary op left right pos => .expr (.binary op left right pos) :: (left.nodes ++ right.nodes)

mutual

/-- The nodes of a statement. -/
def Statement.nodes : Statement → List Node
  | .declare _ _ initial _ => initial.elim [] Expr.nodes
  | .print value _ => value.nodes
  | .read names pos => [.read names pos]
  | .block body => body.nodes
  | .choose condition whenTrue whenFalse _ =>
    condition.nodes ++ (whenTrue.nodes ++ Block.nodesAny whenFalse)
  | .loop initial condition step body _ =>
    initial.nodes ++ (condition.nodes ++ (step.nodes ++ body.nodes))
  | .compute expr _ => expr.nodes
  termination_by structural s => s

/-- The nodes of a block. -/
def Block.nodes : Block → List Node
  | ⟨statements, _⟩ => Statement.nodesAll statements
  termination_by structural b => b

/-- The nodes of a block, if there is one. -/
def Block.nodesAny : Option Block → List Node
  | none => []
  | some body => body.nodes
  termination_by structural b => b

/-- The nodes of all the statements. -/
def Statement.nodesAll : List Statement → List Node
  | [] => []
  | s :: rest => s.nodes ++ Statement.nodesAll rest
  termination_by structural ss => ss

end

/-- The nodes of a program. -/
def Program.nodes (program : Program) : List Node :=
  Statement.nodesAll program

/-- The fault is at the position of one of the nodes, and this node can fail for its
    cause. -/
def Fault.BlamedOn (nodes : List Node) (f : Fault) : Prop :=
  ∃ n ∈ nodes, n.pos = f.pos ∧ n.CanFail f.cause

/-- If an action stopped with a fault, this is blamed on one of the nodes. -/
def Halt.BlamedOn (nodes : List Node) : Halt → Prop
  | .fault f => Fault.BlamedOn nodes f
  | .exhausted => True

/-! ### How actions fail -/

section FailsWith

variable {ε σ α β : Type} {P Q : ε → Prop}

/-- If the action fails, then with an error that `P` holds of. -/
def FailsWith (P : ε → Prop) (x : EStateM ε σ α) : Prop :=
  ∀ ⦃s e s'⦄, x s = .error e s' → P e

theorem FailsWith.mono {x : EStateM ε σ α} (h : FailsWith P x) (hq : ∀ e, P e → Q e) :
    FailsWith Q x :=
  fun _ e _ he => hq e (h he)

theorem FailsWith.pure (a : α) : FailsWith P (pure a : EStateM ε σ α) := by
  intro s e s' h
  cases h

theorem FailsWith.throw {e : ε} (h : P e) : FailsWith P (throw e : EStateM ε σ α) := by
  intro s e' s' he
  obtain ⟨rfl, -⟩ := EStateM.Result.error.inj he
  exact h

theorem FailsWith.modify (f : σ → σ) : FailsWith P (modify f : EStateM ε σ Unit) := by
  intro s e s' h
  cases h

/-- The second action has to be looked at for what the first one can give only. -/
theorem FailsWith.bind {x : EStateM ε σ α} {f : α → EStateM ε σ β} (hx : FailsWith P x)
    (hf : ∀ ⦃s a s'⦄, x s = .ok a s' → FailsWith P (f a)) : FailsWith P (x >>= f) := by
  intro s e s' h
  cases ha : x s with
  | ok a mid =>
    rw [bind_apply_of_ok ha] at h
    exact hf ha h
  | error e' mid =>
    rw [bind_apply_of_error ha] at h
    obtain ⟨rfl, rfl⟩ := EStateM.Result.error.inj h
    exact hx ha

end FailsWith

/-! ### Expressions -/

section Expressions

variable {name : String} {pos : Position}

theorem blame_failsWith {α : Type} {P : FaultCause → Prop} {r : Except FaultCause α}
    (h : FailsOnly P r) : FailsWith (fun f => pos = f.pos ∧ P f.cause) (blame pos r) := by
  cases r with
  | ok a => exact .pure a
  | error cause => exact .throw ⟨rfl, h cause rfl⟩

theorem Environment.resolve_failsWith :
    FailsWith (· = ⟨.unknownVariable name, pos⟩) (resolve name pos) := by
  intro env f env' h
  cases hv : env.find? name with
  | some v =>
    rw [resolve_of_find? hv] at h
    cases h
  | none =>
    rw [resolve_of_none hv] at h
    obtain ⟨rfl, -⟩ := EStateM.Result.error.inj h
    rfl

theorem Environment.write_failsWith {value : Value} :
    FailsWith (· = ⟨.unknownVariable name, pos⟩) (write name value pos) := by
  intro env f env' h
  cases hv : env.assign? name value with
  | some env' =>
    rw [write_of_assign? hv] at h
    cases h
  | none =>
    rw [write_of_none hv] at h
    obtain ⟨rfl, -⟩ := EStateM.Result.error.inj h
    rfl

/-- An expression that fails is blamed itself, or one inside it is. -/
theorem Expr.eval_failsWith {nodes : List Node} (e : Expr) (hs : e.nodes ⊆ nodes) :
    FailsWith (Fault.BlamedOn nodes) e.eval := by
  induction e with
  | literal value pos => exact .pure value
  | var name pos =>
    obtain ⟨hself, -⟩ := List.cons_subset.1 hs
    refine .bind (Environment.resolve_failsWith.mono ?_) fun _ _ _ _ => .pure _
    rintro f rfl
    exact ⟨_, hself, rfl, rfl⟩
  | assign name e pos ih =>
    obtain ⟨hself, hs⟩ := List.cons_subset.1 hs
    refine .bind (ih hs) fun _ value _ _ => ?_
    refine .bind (Environment.write_failsWith.mono ?_) fun _ _ _ _ => .pure _
    rintro f rfl
    exact ⟨_, hself, rfl, rfl⟩
  | unary op e pos ih =>
    obtain ⟨hself, hs⟩ := List.cons_subset.1 hs
    refine .bind (ih hs) fun _ value _ _ => ?_
    exact (blame_failsWith (op.failsOnly_apply value)).mono fun f h => ⟨_, hself, h⟩
  | binary op l r pos ihl ihr =>
    obtain ⟨hself, hs⟩ := List.cons_subset.1 hs
    obtain ⟨hl, hr⟩ := List.append_subset.1 hs
    refine .bind (ihl hl) fun _ x _ _ => .bind (ihr hr) fun _ y _ _ => ?_
    exact (blame_failsWith (op.failsOnly_apply x y)).mono fun f h => ⟨_, hself, h⟩

end Expressions

/-! ### Actions on machines -/

namespace Exec

variable {α : Type} {nodes : List Node} {names : List String} {pos : Position}

theorem onVariables_failsWith {x : EStateM Fault Environment α}
    (h : FailsWith (Fault.BlamedOn nodes) x) :
    FailsWith (Halt.BlamedOn nodes) (onVariables x) := by
  intro m halt m' hm
  rw [onVariables] at hm
  cases hx : x m.env with
  | ok a env =>
    rw [hx] at hm
    cases hm
  | error f env =>
    rw [hx] at hm
    obtain ⟨rfl, -⟩ := EStateM.Result.error.inj hm
    exact h hx

theorem eval_failsWith {e : Expr} (hs : e.nodes ⊆ nodes) :
    FailsWith (Halt.BlamedOn nodes) (eval e) :=
  onVariables_failsWith (e.eval_failsWith hs)

theorem framed_failsWith {x : Exec α} {P : Halt → Prop} (h : FailsWith P x) :
    FailsWith P (framed x) := by
  intro m halt m' hm
  rw [framed] at hm
  cases hx : x m.push with
  | ok a m₁ =>
    rw [hx] at hm
    cases hm
  | error e m₁ =>
    rw [hx] at hm
    obtain ⟨rfl, -⟩ := EStateM.Result.error.inj hm
    exact h hx

/-! ### Reading input -/

/-- A cause of reading into the names is blamed on the statement that reads. -/
theorem blamedOn_of_reading {cause : FaultCause} (hn : Node.read names pos ∈ nodes)
    (hc : cause.OfReading names) : Fault.BlamedOn nodes ⟨cause, pos⟩ :=
  ⟨_, hn, rfl, hc⟩

theorem nextLine_failsWith (hn : Node.read names pos ∈ nodes) :
    FailsWith (Halt.BlamedOn nodes) (nextLine pos) := by
  intro m halt m' h
  obtain ⟨env, output, input, trace⟩ := m
  cases input with
  | cons line rest => cases h
  | nil =>
    obtain ⟨rfl, -⟩ := EStateM.Result.error.inj h
    exact blamedOn_of_reading hn trivial

theorem readFields_failsWith (hn : Node.read names pos ∈ nodes)
    {fields : List (String × List Char)} (hf : ∀ p ∈ fields, p.1 ∈ names) :
    FailsWith (Fault.BlamedOn nodes) (readFields pos fields) := by
  induction fields with
  | nil => exact .pure _
  | cons p fields ih =>
    obtain ⟨name, field⟩ := p
    rw [List.forall_mem_cons] at hf
    refine .bind (Environment.resolve_failsWith.mono ?_) fun _ v _ _ => ?_
    · rintro f rfl
      exact blamedOn_of_reading hn hf.1
    · split
      · exact .bind (ih hf.2) fun _ _ _ _ => .pure _
      · exact .throw (blamedOn_of_reading hn hf.1)

theorem writeFields_failsWith (hn : Node.read names pos ∈ nodes)
    {values : List (String × Value)} (hv : ∀ p ∈ values, p.1 ∈ names) :
    FailsWith (Fault.BlamedOn nodes) (writeFields pos values) := by
  induction values with
  | nil => exact .pure _
  | cons p values ih =>
    rw [List.forall_mem_cons] at hv
    refine .bind (Environment.write_failsWith.mono ?_) fun _ _ _ _ => ih hv.2
    rintro f rfl
    exact blamedOn_of_reading hn hv.1

theorem receive_failsWith (hn : Node.read names pos ∈ nodes) :
    FailsWith (Halt.BlamedOn nodes) (receive names pos) := by
  refine .bind (nextLine_failsWith hn) fun _ line _ _ => ?_
  dsimp only
  split
  · refine .bind (onVariables_failsWith (.bind (readFields_failsWith hn ?_) ?_))
      fun _ _ _ _ => .modify _
    · rintro ⟨name, field⟩ hp
      exact (List.of_mem_zip hp).1
    · -- Writing can fail only for a name that a value was read for, which is one of `names`.
      intro env values env' hv
      exact writeFields_failsWith hn (mem_of_readFields_zip hv)
  · exact .throw (blamedOn_of_reading hn rfl)

end Exec

/-! ### Statements -/

section Statements

variable {nodes : List Node}

namespace Exec

/-- What is blamed is the same at every level. -/
abbrev Blamed (nodes : List Node) : Exec.Relation Unit Unit :=
  .ofProperty fun _ _ x => FailsWith (Halt.BlamedOn nodes) x

theorem blamed_composed (limit : Nat) : Composed id limit limit (Blamed nodes) where
  pure a := .pure a
  bind hx hf := .bind hx fun _ a _ _ => hf a
  forget := id
  framed := framed_failsWith
  rounds := rounds_of_exhausted (Blamed nodes) .pure
    (fun hx hf => .bind hx fun _ a _ _ => hf a) (.throw trivial)
  executing _ := .modify _
  print _ := .modify _

/-- The nodes of a statement are those of its parts. -/
theorem blamed_parts : Translation.refl.Parts id (Blamed nodes)
    (fun _ _ _ s => s.nodes ⊆ nodes) (fun _ _ b => b.nodes ⊆ nodes)
    (fun _ _ ss => Statement.nodesAll ss ⊆ nodes) where
  declare := by
    rintro _ _ _ type names initial pos hs
    refine ⟨?_, fun _ => .modify _⟩
    rintro e rfl
    exact eval_failsWith hs
  print hs := ⟨rfl, eval_failsWith hs⟩
  read hs := ⟨rfl, receive_failsWith (hs List.mem_cons_self)⟩
  block hs := ⟨rfl, hs⟩
  choose := by
    rintro _ _ _ condition whenTrue whenFalse pos hs
    obtain ⟨hc, hs⟩ := List.append_subset.1 hs
    obtain ⟨ht, hf⟩ := List.append_subset.1 hs
    refine ⟨rfl, eval_failsWith hc, ht, ?_⟩
    rintro b rfl
    exact hf
  loop := by
    rintro _ _ _ initial condition step body pos hs
    obtain ⟨hi, hs⟩ := List.append_subset.1 hs
    obtain ⟨hc, hs⟩ := List.append_subset.1 hs
    obtain ⟨hstep, hb⟩ := List.append_subset.1 hs
    exact ⟨rfl, (), (), hi, eval_failsWith hc, hstep, hb⟩
  compute hs := ⟨rfl, eval_failsWith hs⟩
  body hs := hs
  cons hs := ⟨(), List.append_subset.1 hs⟩

end Exec

/-- Statements that fail are blamed on one of their nodes. -/
theorem Statement.execAll_failsWith (limit : Nat) {ss : List Statement}
    (hs : Statement.nodesAll ss ⊆ nodes) :
    FailsWith (Halt.BlamedOn nodes) (Statement.execAll limit ss) := by
  obtain ⟨_, hx⟩ := Statement.execAll_of_parts (n := ()) (i := ())
    (Exec.blamed_composed limit) Exec.blamed_parts hs
  exact hx

end Statements

/-- A program that is stopped by a fault is so by one of its nodes. -/
theorem Program.blamedOn_of_exec {program : Program} {limit : Nat} {m m' : Machine} {f : Fault}
    (h : program.exec limit m = .error (.fault f) m') : Fault.BlamedOn program.nodes f := by
  have hx : FailsWith (Halt.BlamedOn program.nodes) (Statement.execAll limit program) :=
    Statement.execAll_failsWith limit (List.Subset.refl _)
  rw [Program.exec] at h
  split at h
  · cases h
  · rename_i f' m₁ he
    cases h
    exact hx he
  · cases h

end Tudlo
