import Mathlib.Logic.Equiv.Basic
import Tudlo.Proofs.Environment.Renaming
import Tudlo.Proofs.Machine.Indifference
import Tudlo.Proofs.Operator.Causes

/-!
# Programs under other names

The names of variables are only names. When all names in a program are replaced, and
no two of them become one, it does what it did before (`Program.exec_rename`): it
prints the same and takes the same input, the variables are the same under the new
names, and a fault is the same but for the name that it tells.

The two programs are run side by side on machines whose environments match
(`Machine.Renamed`). Neither the actions nor their errors are the same on both sides,
so that lockstep is not enough, and errors and results are translated as well
(`Mirrors`).

* `Expr.rename`, `Statement.rename`, `Program.rename`: the names in a program;
* `Halt.rename`, `Machine.rename`: the names in what comes out of it;
* `Expr.eval_mirrors`, `Statement.execAll_mirrors`: expressions and statements.
-/

namespace Tudlo

/-! ### Other names -/

/-- The expression with every name replaced. -/
def Expr.rename (ρ : String → String) : Expr → Expr
  | .literal value pos => .literal value pos
  | .var name pos => .var (ρ name) pos
  | .assign name value pos => .assign (ρ name) (value.rename ρ) pos
  | .unary op operand pos => .unary op (operand.rename ρ) pos
  | .binary op left right pos => .binary op (left.rename ρ) (right.rename ρ) pos

mutual

/-- The statement with every name replaced, at any depth. -/
def Statement.rename (ρ : String → String) : Statement → Statement
  | .declare type names initial pos =>
    .declare type (names.map ρ) (initial.map (Expr.rename ρ)) pos
  | .print value pos => .print (value.rename ρ) pos
  | .read names pos => .read (names.map ρ) pos
  | .block body => .block (body.rename ρ)
  | .choose condition whenTrue whenFalse pos =>
    .choose (condition.rename ρ) (whenTrue.rename ρ) (Block.renameAny ρ whenFalse) pos
  | .loop initial condition step body pos =>
    .loop (initial.rename ρ) (condition.rename ρ) (step.rename ρ) (body.rename ρ) pos
  | .compute expr pos => .compute (expr.rename ρ) pos
  termination_by structural s => s

/-- The block with every name replaced. -/
def Block.rename (ρ : String → String) : Block → Block
  | ⟨statements, pos⟩ => ⟨Statement.renameAll ρ statements, pos⟩
  termination_by structural b => b

/-- The block, if there is one, with every name replaced. -/
def Block.renameAny (ρ : String → String) : Option Block → Option Block
  | none => none
  | some body => some (body.rename ρ)
  termination_by structural b => b

/-- The statements with every name replaced. -/
def Statement.renameAll (ρ : String → String) : List Statement → List Statement
  | [] => []
  | s :: rest => s.rename ρ :: Statement.renameAll ρ rest
  termination_by structural ss => ss

end

/-- The program with every name replaced. -/
def Program.rename (ρ : String → String) (program : Program) : Program :=
  Statement.renameAll ρ program

/-- The cause with the name that it tells replaced, if it tells one. -/
def FaultCause.rename (ρ : String → String) : FaultCause → FaultCause
  | .unknownVariable name => .unknownVariable (ρ name)
  | .fieldMalformed name expected field => .fieldMalformed (ρ name) expected field
  | cause => cause

/-- The fault with the name that it tells replaced, if it tells one. -/
def Fault.rename (ρ : String → String) (f : Fault) : Fault :=
  { f with cause := f.cause.rename ρ }

/-- The halt with the name that it tells replaced, if it tells one. -/
def Halt.rename (ρ : String → String) : Halt → Halt
  | .fault f => .fault (Fault.rename ρ f)
  | .exhausted => .exhausted

/-- The machine with the names of its variables replaced. -/
def Machine.rename (ρ : String → String) (m : Machine) : Machine :=
  { m with env := m.env.rename ρ }

/-- The end of an execution with all names in it replaced. -/
def Exec.renameEnd (ρ : String → String) :
    EStateM.Result Halt Machine Unit → EStateM.Result Halt Machine Unit
  | .ok _ m => .ok () (m.rename ρ)
  | .error halt m => .error (halt.rename ρ) (m.rename ρ)

/-! ### The names that are there afterwards -/

theorem Expr.names_rename (ρ : String → String) (e : Expr) :
    (e.rename ρ).names = e.names.map ρ := by
  induction e with
  | literal value pos => rfl
  | var name pos => rfl
  | assign name e pos ih => rw [rename, names, names, ih, List.map_cons]
  | unary op e pos ih => exact ih
  | binary op l r pos ihl ihr => rw [rename, names, names, ihl, ihr, List.map_append]

theorem Statement.names_rename (ρ : String → String) :
    Statement.Inductive (fun s => (s.rename ρ).names = s.names.map ρ)
      (fun b => (b.rename ρ).names = b.names.map ρ)
      (fun ss => Statement.namesAll (Statement.renameAll ρ ss) =
        (Statement.namesAll ss).map ρ) where
  declare _ names initial _ := by
    rw [Statement.rename, Statement.names, Statement.names, List.map_append]
    cases initial with
    | none => rfl
    | some e => exact congrArg (names.map ρ ++ ·) (e.names_rename ρ)
  print value _ := value.names_rename ρ
  read _ _ := rfl
  block hb := hb
  choose condition _ whenFalse _ ht hf := by
    have hf : Block.namesAny (Block.renameAny ρ whenFalse) = (Block.namesAny whenFalse).map ρ := by
      cases whenFalse with
      | none => rfl
      | some body => exact hf body rfl
    rw [Statement.rename, Statement.names, Statement.names, List.map_append, List.map_append,
      condition.names_rename, ht, hf]
  loop condition _ _ _ hi hs hb := by
    rw [Statement.rename, Statement.names, Statement.names, List.map_append, List.map_append,
      List.map_append, hi, condition.names_rename, hs, hb]
  compute expr _ := expr.names_rename ρ
  body _ hs := hs
  nil := rfl
  cons hs hr := by
    rw [Statement.renameAll, Statement.namesAll, Statement.namesAll, List.map_append, hs, hr]

/-- Every name in the statements is replaced, and nothing else. -/
theorem Statement.namesAll_renameAll (ρ : String → String) (ss : List Statement) :
    Statement.namesAll (Statement.renameAll ρ ss) = (Statement.namesAll ss).map ρ :=
  Statement.all_of_inductive (Statement.names_rename ρ) ss

variable {ρ : String → String} {N : Set String}

/-! ### Expressions -/

namespace Environment

/-- The environments match, with the names replaced. -/
abbrev Renamed (ρ : String → String) (N : Set String) : Environment → Environment → Prop :=
  Matched (Frame.Renamed ρ N)

variable {name : String}

theorem resolve_mirrors (hρ : N.InjOn ρ) (hn : name ∈ N) (pos : Position) :
    Mirrors (Renamed ρ N) (Fault.rename ρ) id (resolve name pos) (resolve (ρ name) pos) := by
  intro env env' h
  have hf := h.find?_eq (Frame.paired_of_injOn hρ hn)
  cases hv : env'.find? (ρ name) with
  | some v =>
    rw [resolve_of_find? (hf.trans hv), resolve_of_find? hv]
    exact .ok ⟨rfl, h⟩
  | none =>
    rw [resolve_of_none (hf.trans hv), resolve_of_none hv]
    exact .error ⟨rfl, h⟩

theorem write_mirrors (hρ : N.InjOn ρ) (hn : name ∈ N) (value : Value) (pos : Position) :
    Mirrors (Renamed ρ N) (Fault.rename ρ) id (write name value pos)
      (write (ρ name) value pos) := by
  intro env env' h
  rcases h.assign? (Frame.paired_of_injOn hρ hn) value with ⟨ha, hb⟩ | ⟨env₁, env₂, ha, hb, h'⟩
  · rw [write_of_none ha, write_of_none hb]
    exact .error ⟨rfl, h⟩
  · rw [write_of_assign? ha, write_of_assign? hb]
    exact .ok ⟨rfl, h'⟩

end Environment

/-- An operator that fails does not tell a name. -/
theorem BinaryOp.rename_of_canFail {op : BinaryOp} {cause : FaultCause} (h : op.CanFail cause) :
    cause.rename ρ = cause := by
  cases cause with
  | unknownVariable name => exact False.elim h
  | fieldMalformed name expected field => exact False.elim h
  | _ => rfl

theorem UnaryOp.rename_of_canFail {op : UnaryOp} {cause : FaultCause} (h : op.CanFail cause) :
    cause.rename ρ = cause := by
  cases cause with
  | unknownVariable name => exact False.elim h
  | fieldMalformed name expected field => exact False.elim h
  | _ => rfl

theorem blame_mirrors {α : Type} (pos : Position) {r : Except FaultCause α}
    (h : FailsOnly (fun cause => cause.rename ρ = cause) r) :
    Mirrors (Environment.Renamed ρ N) (Fault.rename ρ) id (blame pos r) (blame pos r) := by
  cases r with
  | ok a => exact .pure rfl
  | error cause =>
    refine .throw ?_
    rw [Fault.rename, h cause rfl]

/-- An expression has the same value under other names. -/
theorem Expr.eval_mirrors {e : Expr} (hρ : N.InjOn ρ) (hn : ∀ name ∈ e.names, name ∈ N) :
    Mirrors (Environment.Renamed ρ N) (Fault.rename ρ) id e.eval (e.rename ρ).eval := by
  induction e with
  | literal value pos => exact .pure rfl
  | var name pos =>
    rw [names, List.forall_mem_singleton] at hn
    exact .bind (Environment.resolve_mirrors hρ hn pos) fun _ => .pure rfl
  | assign name e pos ih =>
    rw [names, List.forall_mem_cons] at hn
    refine .bind (ih hn.2) fun value => ?_
    exact .bind (Environment.write_mirrors hρ hn.1 value pos) fun _ => .pure rfl
  | unary op e pos ih =>
    refine .bind (ih hn) fun v => blame_mirrors pos fun cause hc => ?_
    exact UnaryOp.rename_of_canFail (op.failsOnly_apply v cause hc)
  | binary op l r pos ihl ihr =>
    rw [names, List.forall_mem_append] at hn
    refine .bind (ihl hn.1) fun v => .bind (ihr hn.2) fun w => ?_
    refine blame_mirrors pos fun cause hc => ?_
    exact BinaryOp.rename_of_canFail (op.failsOnly_apply v w cause hc)

/-! ### Actions on machines -/

namespace Machine

/-- The machines are the same but for the names of their variables, and these are
    replaced. -/
structure Renamed (ρ : String → String) (N : Set String) (m n : Machine) : Prop where
  env : m.env.Renamed ρ N n.env
  output : m.output = n.output
  input : m.input = n.input
  trace : m.trace = n.trace

namespace Renamed

variable {m n : Machine}

theorem eq_rename (h : m.Renamed ρ N n) : n = m.rename ρ := by
  obtain ⟨env, output, input, trace⟩ := n
  obtain ⟨he, rfl, rfl, rfl⟩ := h
  rw [rename, ← he.eq_rename]

theorem emit (h : m.Renamed ρ N n) (e : Event) : (m.emit e).Renamed ρ N (n.emit e) :=
  ⟨h.env, h.output, h.input, congrArg (·.push e) h.trace⟩

theorem finish (h : m.Renamed ρ N n) (ok : Bool) :
    (m.emit (.finished m.output.utf8ByteSize ok)).Renamed ρ N
      (n.emit (.finished n.output.utf8ByteSize ok)) := by
  rw [← h.output]
  exact h.emit _

theorem withEnv (h : m.Renamed ρ N n) {env env' : Environment} (he : env.Renamed ρ N env') :
    Renamed ρ N { m with env } { n with env := env' } :=
  ⟨he, h.output, h.input, h.trace⟩

/-- A frame that comes is recorded with the number of frames, which is the same. -/
theorem push (h : m.Renamed ρ N n) : m.push.Renamed ρ N n.push := by
  have he := h.env.push (Frame.renamed_empty ρ N)
  have hd : m.env.push.depth = n.env.push.depth := he.length_eq
  rw [Machine.push, Machine.push, hd]
  exact (h.withEnv he).emit _

theorem pop (h : m.Renamed ρ N n) : m.pop.Renamed ρ N n.pop := by
  have he := h.env.pop
  have hd : m.env.pop.depth = n.env.pop.depth := he.length_eq
  rw [Machine.pop, Machine.pop, hd]
  exact (h.withEnv he).emit _

end Renamed

end Machine

namespace Exec

variable {α : Type}

theorem record_mirrors (e : Event) :
    Mirrors (Machine.Renamed ρ N) (Halt.rename ρ) id (record e) (record e) :=
  .modify fun _ _ h => h.emit e

theorem print_mirrors (text : String) :
    Mirrors (Machine.Renamed ρ N) (Halt.rename ρ) id (print text) (print text) :=
  .modify fun _ _ h => ⟨h.env, congrArg (· ++ text) h.output, h.input, h.trace⟩

theorem onVariables_mirrors {x y : EStateM Fault Environment α}
    (h : Mirrors (Environment.Renamed ρ N) (Fault.rename ρ) id x y) :
    Mirrors (Machine.Renamed ρ N) (Halt.rename ρ) id (onVariables x) (onVariables y) := by
  intro m n hmn
  have hxy := h hmn.env
  rw [onVariables, onVariables]
  generalize x m.env = r, y n.env = r' at hxy ⊢
  cases hxy with
  | ok hr => exact .ok ⟨hr.1, hmn.withEnv hr.2⟩
  | error hr => exact .error ⟨congrArg Halt.fault hr.1, hmn.withEnv hr.2⟩

theorem eval_mirrors {e : Expr} (hρ : N.InjOn ρ) (hn : ∀ name ∈ e.names, name ∈ N) :
    Mirrors (Machine.Renamed ρ N) (Halt.rename ρ) id (eval e) (eval (e.rename ρ)) :=
  onVariables_mirrors (Expr.eval_mirrors hρ hn)

theorem declare_mirrors {names : List String} (hρ : N.InjOn ρ) (hn : ∀ name ∈ names, name ∈ N)
    (type : ScalarType) (value : Value) :
    Mirrors (Machine.Renamed ρ N) (Halt.rename ρ) id (declare type names value)
      (declare type (names.map ρ) value) :=
  .modify fun _ _ h => h.withEnv (h.env.foldl_define hρ hn _)

theorem nextLine_mirrors (pos : Position) :
    Mirrors (Machine.Renamed ρ N) (Halt.rename ρ) id (nextLine pos) (nextLine pos) := by
  rintro ⟨env, output, input, trace⟩ ⟨env', output', input', trace'⟩ ⟨he, ho, hi, ht⟩
  obtain rfl : input = input' := hi
  cases input with
  | nil => exact .error ⟨rfl, he, ho, rfl, ht⟩
  | cons line rest => exact .ok ⟨rfl, he, ho, rfl, ht⟩

/-- The values are read for the replaced names. -/
theorem readFields_mirrors (hρ : N.InjOn ρ) (pos : Position) {fields : List (String × List Char)}
    (hn : ∀ p ∈ fields, p.1 ∈ N) :
    Mirrors (Environment.Renamed ρ N) (Fault.rename ρ) (List.map (Prod.map ρ id))
      (readFields pos fields) (readFields pos (fields.map (Prod.map ρ id))) := by
  induction fields with
  | nil => exact .pure rfl
  | cons p fields ih =>
    rw [List.forall_mem_cons] at hn
    -- The variable is the same on both sides, and so is the type to read the field for.
    refine .bind (Environment.resolve_mirrors hρ hn.1 pos) fun v => ?_
    dsimp only [id, Prod.map]
    split
    · exact .bind (ih hn.2) fun _ => .pure rfl
    · exact .throw rfl

theorem writeFields_mirrors (hρ : N.InjOn ρ) (pos : Position) {values : List (String × Value)}
    (hn : ∀ p ∈ values, p.1 ∈ N) :
    Mirrors (Environment.Renamed ρ N) (Fault.rename ρ) id (writeFields pos values)
      (writeFields pos (values.map (Prod.map ρ id))) := by
  induction values with
  | nil => exact .pure rfl
  | cons p values ih =>
    rw [List.forall_mem_cons] at hn
    exact .bind (Environment.write_mirrors hρ hn.1 _ pos) fun _ => ih hn.2

theorem receive_mirrors {names : List String} (hρ : N.InjOn ρ) (hn : ∀ name ∈ names, name ∈ N)
    (pos : Position) :
    Mirrors (Machine.Renamed ρ N) (Halt.rename ρ) id (receive names pos)
      (receive (names.map ρ) pos) := by
  refine .bind (nextLine_mirrors pos) fun line => ?_
  dsimp only [id]
  have hz : (names.map ρ).zip (inputFields line) =
      (names.zip (inputFields line)).map (Prod.map ρ id) := by
    rw [List.zip_map_left]
  rw [List.length_map, hz]
  split
  · refine .bind (onVariables_mirrors (.bind_of_ok (readFields_mirrors hρ pos ?_) ?_))
      fun _ => record_mirrors _
    · rintro ⟨name, field⟩ hp
      exact hn name (List.of_mem_zip hp).1
    · -- Values are written for the names that they were read for, and no others.
      intro values env env' hv
      exact writeFields_mirrors hρ pos fun p hp => hn p.1 (mem_of_readFields_zip hv p hp)
  · exact .throw rfl

theorem framed_mirrors {x y : Exec α}
    (h : Mirrors (Machine.Renamed ρ N) (Halt.rename ρ) id x y) :
    Mirrors (Machine.Renamed ρ N) (Halt.rename ρ) id (framed x) (framed y) := by
  intro m n hmn
  have hxy := h hmn.push
  rw [framed, framed]
  generalize x m.push = r, y n.push = r' at hxy ⊢
  cases hxy with
  | ok hr => exact .ok ⟨hr.1, hr.2.pop⟩
  | error hr => exact .error ⟨hr.1, hr.2.pop⟩

end Exec

/-! ### Statements -/

/-- Names are replaced part by part. -/
def Translation.renaming (ρ : String → String) : Translation where
  expr := Expr.rename ρ
  names := List.map ρ
  statement := Statement.rename ρ
  block := Block.rename ρ
  all := Statement.renameAll ρ
  declare _ _ _ _ := rfl
  print _ _ := rfl
  read _ _ := rfl
  blocks _ := rfl
  choose _ _ whenFalse _ := by cases whenFalse <;> rfl
  loop _ _ _ _ _ := rfl
  compute _ _ := rfl
  body _ _ := rfl
  nil := rfl
  cons _ _ := rfl

namespace Exec

/-- What is done under other names is the same at every level. -/
abbrev Mirrored (ρ : String → String) (N : Set String) : Relation Unit Unit :=
  fun _ _ _ _ x y => Mirrors (Machine.Renamed ρ N) (Halt.rename ρ) id x y

theorem mirrored_composed (limit : Nat) : Composed id limit limit (Mirrored ρ N) where
  pure _ := .pure rfl
  bind := .bind
  forget := id
  framed := framed_mirrors
  rounds := rounds_of_exhausted (Mirrored ρ N) (fun _ => .pure rfl) .bind (.throw rfl)
  executing _ := record_mirrors _
  print := print_mirrors

theorem mirrored_parts (hρ : N.InjOn ρ) : (Translation.renaming ρ).Parts id (Mirrored ρ N)
    (fun _ _ _ s => ∀ name ∈ s.names, name ∈ N) (fun _ _ b => ∀ name ∈ b.names, name ∈ N)
    (fun _ _ ss => ∀ name ∈ Statement.namesAll ss, name ∈ N) where
  declare := by
    rintro _ _ _ type names initial pos hn
    rw [Statement.names, List.forall_mem_append] at hn
    refine ⟨?_, declare_mirrors hρ hn.1 type⟩
    rintro e rfl
    exact eval_mirrors hρ hn.2
  print hn := ⟨rfl, eval_mirrors hρ hn⟩
  read hn := ⟨rfl, receive_mirrors hρ hn _⟩
  block hn := ⟨rfl, hn⟩
  choose := by
    rintro _ _ _ condition whenTrue whenFalse pos hn
    rw [Statement.names, List.forall_mem_append, List.forall_mem_append] at hn
    refine ⟨rfl, eval_mirrors hρ hn.1, hn.2.1, ?_⟩
    rintro b rfl
    exact hn.2.2
  loop := by
    rintro _ _ _ initial condition step body pos hn
    simp only [Statement.names, List.forall_mem_append] at hn
    obtain ⟨hi, hc, hs, hb⟩ := hn
    exact ⟨rfl, (), (), hi, eval_mirrors hρ hc, hs, hb⟩
  compute hn := ⟨rfl, eval_mirrors hρ hn⟩
  body hn := hn
  cons := by
    rintro _ _ s rest hn
    rw [Statement.namesAll, List.forall_mem_append] at hn
    exact ⟨(), hn⟩

end Exec

/-- Statements are executed under other names as they are. -/
theorem Statement.execAll_mirrors (hρ : N.InjOn ρ) (limit : Nat) {ss : List Statement}
    (hn : ∀ name ∈ Statement.namesAll ss, name ∈ N) :
    Mirrors (Machine.Renamed ρ N) (Halt.rename ρ) id (Statement.execAll limit ss)
      (Statement.execAll limit (Statement.renameAll ρ ss)) := by
  obtain ⟨_, hx⟩ := Statement.execAll_of_parts (n := ()) (i := ()) (Exec.mirrored_composed limit)
    (Exec.mirrored_parts hρ) hn
  exact hx

/-! ### Programs -/

/-- How the program ended is recorded on both sides. -/
theorem Program.exec_mirrors {program : Program} (hρ : N.InjOn ρ) (limit : Nat)
    (hn : ∀ name ∈ Statement.namesAll program, name ∈ N) :
    Mirrors (Machine.Renamed ρ N) (Halt.rename ρ) id (program.exec limit)
      ((program.rename ρ).exec limit) := by
  intro m n hmn
  have h := Statement.execAll_mirrors hρ limit hn hmn
  rw [Program.exec, Program.exec, Program.rename]
  generalize Statement.execAll limit program m = r,
    Statement.execAll limit (Statement.renameAll ρ program) n = r' at h ⊢
  cases h with
  | ok h => exact .ok ⟨rfl, h.2.finish true⟩
  | @error halt _ _ _ h =>
    obtain ⟨rfl, h⟩ := h
    cases halt with
    | fault f => exact .error ⟨rfl, h.finish false⟩
    | exhausted => exact .error ⟨rfl, h⟩

/-- A program does the same under other names.

    When the names in the program are replaced, and no two of them by the same name,
    executing it from the start comes to the end that the program comes to, with the
    names in it replaced. The output, the input that is left and the record are the
    same, and so is every value. What other names are replaced by does not matter. -/
theorem Program.exec_rename {program : Program} {ρ : String → String}
    (hρ : {name | name ∈ Statement.namesAll program}.InjOn ρ) (limit : Nat)
    (input : List String) :
    Statement.namesAll (program.rename ρ) = (Statement.namesAll program).map ρ ∧
      (program.rename ρ).exec limit { input } =
        Exec.renameEnd ρ (program.exec limit { input }) := by
  refine ⟨Statement.namesAll_renameAll ρ program, ?_⟩
  -- At the start there are no names, so nothing has to be replaced.
  have hs : Machine.Renamed ρ {name | name ∈ Statement.namesAll program} { input } { input } :=
    ⟨.cons (Frame.renamed_empty ρ _) .nil, rfl, rfl, rfl⟩
  have h := Program.exec_mirrors hρ limit (fun _ hn => hn) hs
  generalize program.exec limit { input } = r, (program.rename ρ).exec limit { input } = r' at h ⊢
  cases h with
  | ok h => rw [h.2.eq_rename, Exec.renameEnd]
  | error h => rw [← h.1, h.2.eq_rename, Exec.renameEnd]

/-- Reads two numbers in the other order than they are declared in. -/
def crosswise : Program :=
  [.declare .integer ["a", "b"] (some (.literal (.integer 3) ⟨1, 20⟩)) ⟨1, 1⟩,
   .print (.binary .add (.var "a" ⟨2, 9⟩) (.var "b" ⟨2, 13⟩) ⟨2, 11⟩) ⟨2, 1⟩,
   .read ["b", "a"] ⟨3, 1⟩]

/-- The names are exchanged, and the fault tells the other name. -/
theorem Program.exec_rename_crosswise :
    {name | name ∈ Statement.namesAll crosswise}.InjOn (Equiv.swap "a" "b") ∧
    (∃ m, crosswise.exec 1 { input := ["4,x"] } =
      .error (.fault ⟨.fieldMalformed "a" .integer "x", ⟨3, 1⟩⟩) m ∧ m.output = "6") ∧
    Statement.namesAll (crosswise.rename (Equiv.swap "a" "b")) =
      (Statement.namesAll crosswise).map (Equiv.swap "a" "b") ∧
    (crosswise.rename (Equiv.swap "a" "b")).exec 1 { input := ["4,x"] } =
      Exec.renameEnd (Equiv.swap "a" "b") (crosswise.exec 1 { input := ["4,x"] }) := by
  have hρ : {name | name ∈ Statement.namesAll crosswise}.InjOn (Equiv.swap "a" "b") :=
    (Equiv.swap "a" "b").injective.injOn
  exact ⟨hρ, ⟨_, rfl, rfl⟩, Program.exec_rename hρ 1 ["4,x"]⟩

end Tudlo
