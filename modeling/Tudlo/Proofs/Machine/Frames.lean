import Tudlo.Proofs.Environment.Shape
import Tudlo.Proofs.Machine.Actions
import Tudlo.Proofs.Machine.Induction

/-!
# Frames are left as they were found

Execution adds a frame for every block and every loop, and takes it away again
on every way out, also when a fault stops the program far inside. So a statement
leaves as many frames as it found, and each of them with the names and declared
types that it had. Only a declaration adds something, to the innermost frame,
and only when its value could be computed.

The proof goes by the shape of the environment (`Environment.shape`). There are
two things an action can keep: the whole shape, or the shape of all frames but
the innermost. An action of the second sort is turned into one of the first by
a frame of its own (`Exec.framed_keeps`), and this is all that blocks and loops
do. A statement keeps one or the other (`Statement.kept`).

* `Expr.eval_keeps`, `Block.exec_keeps`, `Statement.exec_keeps`: the shape that
  is kept;
* `Statement.exec_declare_of_starts`: what a declaration does to the innermost
  frame;
* `Machine.frames_kept`: all of it.
-/

namespace Tudlo

/-! ### Expressions -/

namespace Environment

theorem resolve_keeps (name : String) (pos : Position) : Keeps shape (resolve name pos) := by
  intro env
  cases h : env.find? name with
  | some v => rw [stateAfter_of_ok (resolve_of_find? h)]
  | none => rw [stateAfter_of_error (resolve_of_none h)]

theorem write_keeps (name : String) (value : Value) (pos : Position) :
    Keeps shape (write name value pos) := by
  intro env
  cases h : env.assign? name value with
  | some env' => rw [stateAfter_of_ok (write_of_assign? h), shape_of_assign? h]
  | none => rw [stateAfter_of_error (write_of_none h)]

end Environment

theorem blame_keeps {α : Type} (pos : Position) (r : Except FaultCause α) :
    Keeps Environment.shape (blame pos r) := by
  cases r with
  | ok a => exact .pure a
  | error cause => exact .throw _

/-- An expression keeps the shape, as all it can do is assign. -/
theorem Expr.eval_keeps (e : Expr) : Keeps Environment.shape e.eval := by
  induction e with
  | literal value pos => exact .pure value
  | var name pos => exact .bind (Environment.resolve_keeps name pos) fun _ => .pure _
  | assign name e pos ih =>
    refine .bind ih fun value => ?_
    exact .bind (Environment.write_keeps name value pos) fun _ => .pure _
  | unary op e pos ih => exact .bind ih fun _ => blame_keeps _ _
  | binary op l r pos ihl ihr => exact .bind ihl fun _ => .bind ihr fun _ => blame_keeps _ _

/-! ### Actions on machines -/

namespace Machine

/-- The names and declared types of all frames of the machine. -/
def shape (m : Machine) : List (String → Option ScalarType) :=
  m.env.shape

/-- The names and declared types of all frames but the innermost. -/
def outerShape (m : Machine) : List (String → Option ScalarType) :=
  m.env.outerShape

end Machine

/-- What keeps the shape of all frames keeps that of the outer ones. -/
theorem Keeps.outer {α : Type} {x : Exec α} (h : Keeps Machine.shape x) :
    Keeps Machine.outerShape x :=
  fun m => (Environment.shape_eq_iff.1 (h m)).2

namespace Exec

variable {α : Type}

theorem record_keeps (e : Event) : Keeps Machine.shape (record e) :=
  .modify fun _ => rfl

theorem print_keeps (text : String) : Keeps Machine.shape (print text) :=
  .modify fun _ => rfl

theorem eval_keeps (e : Expr) : Keeps Machine.shape (eval e) :=
  .onVariables e.eval_keeps

theorem nextLine_keeps (pos : Position) : Keeps Machine.shape (nextLine pos) := by
  rintro ⟨env, output, input, trace⟩
  cases input <;> rfl

theorem readFields_keeps (pos : Position) (fields : List (String × List Char)) :
    Keeps Environment.shape (readFields pos fields) := by
  induction fields with
  | nil => exact .pure _
  | cons p fields ih =>
    refine .bind (Environment.resolve_keeps _ _) fun v => ?_
    split
    · exact .bind ih fun _ => .pure _
    · exact .throw _

theorem writeFields_keeps (pos : Position) (values : List (String × Value)) :
    Keeps Environment.shape (writeFields pos values) := by
  induction values with
  | nil => exact .pure _
  | cons p values ih => exact .bind (Environment.write_keeps _ _ _) fun _ => ih

theorem receive_keeps (names : List String) (pos : Position) :
    Keeps Machine.shape (receive names pos) := by
  refine .bind (nextLine_keeps pos) fun line => ?_
  dsimp only
  split
  · refine .bind (.onVariables ?_) fun _ => record_keeps _
    exact .bind (readFields_keeps pos _) fun _ => writeFields_keeps pos _
  · exact .throw _

/-- Inside a frame of its own an action may do what it wants with that frame, as
    long as it keeps the others. -/
theorem framed_keeps {x : Exec α} (h : Keeps Machine.outerShape x) :
    Keeps Machine.shape (framed x) := by
  intro m
  cases hx : x m.push with
  | ok a m' =>
    rw [stateAfter_of_ok (by rw [framed, hx])]
    exact Environment.shape_pop_of_outerShape (h.of_ok hx)
  | error halt m' =>
    rw [stateAfter_of_error (by rw [framed, hx])]
    exact Environment.shape_pop_of_outerShape (h.of_error hx)

theorem declare_keeps (type : ScalarType) (names : List String) (value : Value) :
    Keeps Machine.outerShape (declare type names value) :=
  .modify fun m => by
    rw [Machine.outerShape, Machine.outerShape, Environment.outerShape,
      Environment.outer_foldl_define, Environment.outerShape]

end Exec

/-! ### Statements -/

/-- Whether a statement is a declaration. -/
def Statement.isDeclaration : Statement → Bool
  | .declare .. => true
  | _ => false

/-- What a statement keeps: everything, unless it declares names. -/
def Statement.kept (s : Statement) : Machine → List (String → Option ScalarType) :=
  if s.isDeclaration then Machine.outerShape else Machine.shape

/-- Every statement keeps all frames but the innermost. -/
theorem Statement.keeps_outer {s : Statement} {x : Exec Unit} (h : Keeps s.kept x) :
    Keeps Machine.outerShape x := by
  rw [kept] at h
  split at h
  · exact h
  · exact h.outer

namespace Exec

/-- What is kept at a place where names may be declared, and at one where they may not. -/
abbrev KeptAt (declares : Bool) (α : Type) (x : Exec α) : Prop :=
  Keeps (if declares then Machine.outerShape else Machine.shape) x

theorem keptAt_of_keeps {x : Exec α} (h : Keeps Machine.shape x) (declares : Bool) :
    KeptAt declares α x := by
  cases declares with
  | false => exact h
  | true => exact h.outer

/-- Inside of a frame names may be declared. -/
theorem keptAt_composed (limit : Nat) :
    Composed (fun _ => true) limit limit (.ofProperty KeptAt) where
  pure a := .pure a
  bind := .bind
  forget := id
  framed h := keptAt_of_keeps (framed_keeps h) _
  rounds := rounds_of_exhausted (.ofProperty KeptAt) .pure .bind (.throw _)
  executing _ := keptAt_of_keeps (record_keeps _) _
  print text := keptAt_of_keeps (print_keeps text) _

theorem keptAt_parts : Translation.refl.Parts (fun _ => true) (.ofProperty KeptAt)
    (fun declares _ _ s => s.isDeclaration = false ∨ declares = true) (fun _ _ _ => True)
    (fun declares _ _ => declares = true) where
  declare := by
    rintro declares _ _ type names initial pos (h | rfl)
    · cases h
    · exact ⟨fun e _ => keptAt_of_keeps (eval_keeps e) _, declare_keeps type names⟩
  print _ := ⟨rfl, keptAt_of_keeps (eval_keeps _) _⟩
  read _ := ⟨rfl, keptAt_of_keeps (receive_keeps _ _) _⟩
  block _ := ⟨rfl, trivial⟩
  choose _ := ⟨rfl, keptAt_of_keeps (eval_keeps _) _, trivial, fun _ _ => trivial⟩
  loop _ := ⟨rfl, (), (), .inr rfl, keptAt_of_keeps (eval_keeps _) _, .inr rfl, trivial⟩
  compute _ := ⟨rfl, keptAt_of_keeps (eval_keeps _) _⟩
  body _ := rfl
  cons h := ⟨(), .inr h, h⟩

end Exec

theorem Statement.exec_keeps (limit : Nat) (s : Statement) : Keeps s.kept (s.exec limit) :=
  Statement.exec_of_parts (i := ()) (j := ()) (Exec.keptAt_composed limit) Exec.keptAt_parts
    (by cases s.isDeclaration <;> simp)

theorem Block.exec_keeps (limit : Nat) (b : Block) : Keeps Machine.shape (b.exec limit) :=
  Block.exec_of_parts (n := false) (i := ()) (Exec.keptAt_composed limit) Exec.keptAt_parts trivial

theorem Statement.execAll_keeps (limit : Nat) (ss : List Statement) :
    Keeps Machine.outerShape (Statement.execAll limit ss) := by
  obtain ⟨_, hx⟩ := Statement.execAll_of_parts (n := true) (i := ()) (Exec.keptAt_composed limit)
    Exec.keptAt_parts rfl
  exact hx

/-- What is recorded at the end of a program changes nothing about its frames. -/
theorem Program.exec_keeps (limit : Nat) (program : Program) :
    Keeps Machine.outerShape (program.exec limit) := by
  intro m
  have hk := Statement.execAll_keeps limit program
  cases h : Statement.execAll limit program m with
  | ok u m' =>
    rw [stateAfter_of_ok (by rw [Program.exec, h])]
    show m'.outerShape = m.outerShape
    exact hk.of_ok h
  | error halt m' =>
    cases halt with
    | fault f =>
      rw [stateAfter_of_error (by rw [Program.exec, h])]
      show m'.outerShape = m.outerShape
      exact hk.of_error h
    | exhausted =>
      rw [stateAfter_of_error (by rw [Program.exec, h])]
      exact hk.of_error h

/-! ### Declarations -/

/-- The names of a declaration start with `value`, and finding that value leads
    from one environment to the other. -/
def Statement.Starts (type : ScalarType) (initial : Option Expr) (env : Environment)
    (value : Value) (env' : Environment) : Prop :=
  match initial with
  | some e => e.eval env = .ok value env'
  | none => value = type.zero ∧ env' = env

/-- A declaration comes to its end when there is a value to start with, and then
    all names are declared with that value. -/
theorem Statement.exec_declare_of_starts {type : ScalarType} {names : List String}
    {initial : Option Expr} {m : Machine} {value : Value} {env : Environment}
    (h : Statement.Starts type initial m.env value env) (limit : Nat) (pos : Position) :
    (Statement.declare type names initial pos).exec limit m = .ok () { m.emit (.executing pos) with
      env := names.foldl (fun env name => env.define name ⟨type, value⟩) env } := by
  cases initial with
  | none =>
    obtain ⟨rfl, rfl⟩ := h
    rfl
  | some e =>
    have he := Exec.eval_of_ok (m := m.emit (.executing pos)) h
    rw [Statement.exec, bind_apply_of_ok (Exec.record_apply (.executing pos) m)]
    exact bind_apply_of_ok he

/-- A declaration stops when the value to start with cannot be computed, and
    then nothing is declared. -/
theorem Statement.exec_declare_of_error {type : ScalarType} {names : List String} {e : Expr}
    {m : Machine} {f : Fault} {env : Environment} (h : e.eval m.env = .error f env) (limit : Nat)
    (pos : Position) :
    (Statement.declare type names (some e) pos).exec limit m =
      .error (.fault f) { m.emit (.executing pos) with env } := by
  have he := Exec.eval_of_error (m := m.emit (.executing pos)) h
  rw [Statement.exec, bind_apply_of_ok (Exec.record_apply (.executing pos) m)]
  exact bind_apply_of_error he

/-- A declaration either finds a value to start with, or stops while it looks
    for one. -/
theorem Statement.starts_or_error (type : ScalarType) (initial : Option Expr)
    (env : Environment) : (∃ value env', Statement.Starts type initial env value env') ∨
      ∃ e f env', initial = some e ∧ e.eval env = .error f env' := by
  cases initial with
  | none => exact .inl ⟨type.zero, env, rfl, rfl⟩
  | some e =>
    cases h : e.eval env with
    | ok value env' => exact .inl ⟨value, env', h⟩
    | error f env' => exact .inr ⟨e, f, env', rfl, h⟩

/-- To find the value to start with keeps the shape. -/
theorem Statement.Starts.shape_eq {type : ScalarType} {initial : Option Expr}
    {env env' : Environment} {value : Value} (h : Statement.Starts type initial env value env') :
    env'.shape = env.shape := by
  cases initial with
  | none => rw [h.2]
  | some e => exact e.eval_keeps.of_ok h

/-- A statement that fails keeps the whole shape, declarations included. -/
theorem Statement.shape_of_exec_error {limit : Nat} {s : Statement} {m m' : Machine} {halt : Halt}
    (h : s.exec limit m = .error halt m') : m'.shape = m.shape := by
  have hs := s.exec_keeps limit
  cases s with
  | declare type names initial pos =>
    rcases Statement.starts_or_error type initial m.env with ⟨value, env, hv⟩ | ⟨e, f, env, rfl, he⟩
    · rw [Statement.exec_declare_of_starts hv] at h
      cases h
    · rw [Statement.exec_declare_of_error he, EStateM.Result.error.injEq] at h
      rw [← h.2]
      exact e.eval_keeps.of_error he
  | _ => exact hs.of_error h

/-! ### All of it -/

/-- Frames are left as they were found, whatever the end of the execution is.

    A statement leaves as many frames as there were, with the names and declared
    types that they had. The innermost frame is an exception only when the
    statement is a declaration that succeeds: then its names have the declared
    type and the value that was computed for all of them, and the others have
    what they had after computing that value. Expressions and blocks keep all
    frames, and programs keep all but the innermost. -/
theorem Machine.frames_kept (limit : Nat) (m : Machine) :
    (∀ s : Statement,
      (stateAfter (s.exec limit) m).env.depth = m.env.depth ∧
      (stateAfter (s.exec limit) m).env.outerShape = m.env.outerShape ∧
      (s.isDeclaration = false ∨ (∃ halt m', s.exec limit m = .error halt m') →
        (stateAfter (s.exec limit) m).env.inner.types = m.env.inner.types)) ∧
    (∀ type names initial pos m',
      (Statement.declare type names initial pos).exec limit m = .ok () m' →
      ∃ value env, Statement.Starts type initial m.env value env ∧ env.shape = m.env.shape ∧
        ∀ name, m'.env.inner.find? name =
          if name ∈ names then some ⟨type, value⟩ else env.inner.find? name) ∧
    (∀ e : Expr, (stateAfter (Exec.eval e) m).env.depth = m.env.depth ∧
      (stateAfter (Exec.eval e) m).env.shape = m.env.shape) ∧
    (∀ b : Block, (stateAfter (b.exec limit) m).env.depth = m.env.depth ∧
      (stateAfter (b.exec limit) m).env.shape = m.env.shape) ∧
    (∀ program : Program, (stateAfter (program.exec limit) m).env.depth = m.env.depth ∧
      (stateAfter (program.exec limit) m).env.outerShape = m.env.outerShape) := by
  refine ⟨fun s => ?_, fun type names initial pos m' h => ?_, fun e => ?_, fun b => ?_,
    fun program => ?_⟩
  · have ho := Statement.keeps_outer (s.exec_keeps limit) m
    refine ⟨Environment.depth_of_outerShape ho, ho, ?_⟩
    rintro (hs | ⟨halt, m', h⟩)
    · have hk := s.exec_keeps limit m
      rw [Statement.kept, hs] at hk
      exact (Environment.shape_eq_iff.1 hk).1
    · rw [stateAfter_of_error h]
      exact (Environment.shape_eq_iff.1 (Statement.shape_of_exec_error h)).1
  · rcases Statement.starts_or_error type initial m.env with ⟨value, env, hv⟩ | ⟨e, f, env, rfl, he⟩
    · rw [Statement.exec_declare_of_starts hv, EStateM.Result.ok.injEq] at h
      refine ⟨value, env, hv, hv.shape_eq, fun name => ?_⟩
      rw [← h.2]
      exact Environment.find?_inner_foldl_define ⟨type, value⟩ names env name
    · rw [Statement.exec_declare_of_error he] at h
      cases h
  · have h := Exec.eval_keeps e m
    exact ⟨Environment.depth_of_outerShape (Environment.shape_eq_iff.1 h).2, h⟩
  · have h := b.exec_keeps limit m
    exact ⟨Environment.depth_of_outerShape (Environment.shape_eq_iff.1 h).2, h⟩
  · have h := Program.exec_keeps limit program m
    exact ⟨Environment.depth_of_outerShape h, h⟩

end Tudlo
