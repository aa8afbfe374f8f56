import Tudlo.Proofs.Coupling
import Tudlo.Proofs.Environment.Growth
import Tudlo.Proofs.Machine.Layers

/-!
# Execution in like environments

Execution cannot tell the frames of two environments apart when they answer every look-up
alike, and when they go on to do so whatever is done to both of them. Relations between
frames with this property are *simulations* (`Environment.Simulation`). As in
`Tudlo.Proofs.Machine.Layers` they come as a family, with one relation for each number of
frames above the place where the others differ, and the names that are written may be
restricted.

* `Machine.Like`: machines with related frames that are the same to the outside, but for the
  record of what happened;
* `Block.exec_of_simulation`: a block does the same on such machines.
-/

namespace Tudlo

namespace Environment

/-- Related frames have the same variables to look up, and they stay related when the same is
    done to both of them. There is always a frame left when one is taken away. -/
structure Simulation (writable : String → Prop) (R : Nat → List Frame → List Frame → Prop) :
    Prop where
  findSome?_eq {n : Nat} {fs gs : List Frame} (h : R n fs gs) (name : String) :
    (fs.findSome? fun f => f.find? name) = gs.findSome? fun g => g.find? name
  assignIn? {n : Nat} {fs gs : List Frame} (h : R n fs gs) {name : String} (hn : writable name)
    (value : Value) : Option.Rel (R n) (assignIn? name value fs) (assignIn? name value gs)
  insert {n : Nat} {f g : Frame} {fs gs : List Frame} (h : R (n + 1) (f :: fs) (g :: gs))
    {name : String} (hn : writable name) (v : Variable) :
    R (n + 1) (f.insert name v :: fs) (g.insert name v :: gs)
  push {n : Nat} {fs gs : List Frame} (h : R n fs gs) : R (n + 1) ({} :: fs) ({} :: gs)
  pop {n : Nat} {f g : Frame} {fs gs : List Frame} (h : R (n + 1) (f :: fs) (g :: gs)) :
    R n fs gs ∧ fs ≠ [] ∧ gs ≠ []

theorem frames_pop {env : Environment} (h : env.outer ≠ []) : env.pop.frames = env.outer := by
  obtain ⟨f, fs⟩ := env
  cases fs with
  | nil => exact absurd rfl h
  | cons g gs => rfl

/-- The environments have frames that are related. -/
def Over (R : List Frame → List Frame → Prop) (env env' : Environment) : Prop :=
  R env.frames env'.frames

namespace Simulation

variable {writable : String → Prop} {R : Nat → List Frame → List Frame → Prop} {n : Nat}
  {env env' : Environment} {name : String}

theorem assign? (h : Simulation writable R) (hr : Over (R n) env env') (hn : writable name)
    (value : Value) :
    Option.Rel (Over (R n)) (env.assign? name value) (env'.assign? name value) := by
  have ha := h.assignIn? hr hn value
  rw [← frames_assign?, ← frames_assign?] at ha
  generalize env.assign? name value = a, env'.assign? name value = b at ha ⊢
  rcases a with _ | a <;> rcases b with _ | b <;> cases ha
  · exact .none
  · exact .some ‹_›

theorem pop_over (h : Simulation writable R) (hr : Over (R (n + 1)) env env') :
    Over (R n) env.pop env'.pop := by
  obtain ⟨hp, hf, hg⟩ := h.pop hr
  rw [Over, frames_pop hf, frames_pop hg]
  exact hp

theorem foldl_define (h : Simulation writable R) (hr : Over (R (n + 1)) env env')
    {names : List String} (hw : ∀ name ∈ names, writable name) (v : Variable) :
    Over (R (n + 1)) (names.foldl (fun env name => env.define name v) env)
      (names.foldl (fun env name => env.define name v) env') := by
  induction names generalizing env env' with
  | nil => exact hr
  | cons name names ih =>
    rw [List.forall_mem_cons] at hw
    exact ih (h.insert hr hw.1 v) hw.2

theorem resolve (h : Simulation writable R) (n : Nat) (name : String) (pos : Position) :
    Lockstep (Over (R n)) (resolve name pos) (resolve name pos) := by
  intro env env' hr
  have hf : env.find? name = env'.find? name := h.findSome?_eq hr name
  cases hv : env'.find? name with
  | some v =>
    rw [resolve_of_find? (hf.trans hv), resolve_of_find? hv]
    exact .ok ⟨rfl, hr⟩
  | none =>
    rw [resolve_of_none (hf.trans hv), resolve_of_none hv]
    exact .error ⟨rfl, hr⟩

theorem write (h : Simulation writable R) (n : Nat) (hn : writable name) (value : Value)
    (pos : Position) : Lockstep (Over (R n)) (write name value pos) (write name value pos) := by
  intro env env' hr
  have ha := h.assign? hr hn value
  generalize hv : env.assign? name value = a, hw : env'.assign? name value = b at ha
  cases ha with
  | some hab =>
    rw [write_of_assign? hv, write_of_assign? hw]
    exact .ok ⟨rfl, hab⟩
  | none =>
    rw [write_of_none hv, write_of_none hw]
    exact .error ⟨rfl, hr⟩

end Simulation

end Environment

/-! ### Machines -/

/-- The machines have printed the same and have the same input left, and their frames are
    related. -/
structure Machine.Like (R : List Frame → List Frame → Prop) (m n : Machine) : Prop where
  env : m.env.Over R n.env
  output : m.output = n.output
  input : m.input = n.input

namespace Exec

variable {R S : List Frame → List Frame → Prop} {α : Type}

theorem record_like (e : Event) : Lockstep (Machine.Like R) (record e) (record e) :=
  .modify fun _ _ h => ⟨h.env, h.output, h.input⟩

theorem print_like (text : String) : Lockstep (Machine.Like R) (print text) (print text) :=
  .modify fun _ _ h => ⟨h.env, congrArg (· ++ text) h.output, h.input⟩

theorem onVariables_like {a : EStateM Fault Environment α} (h : Lockstep (Environment.Over R) a a) :
    Lockstep (Machine.Like R) (onVariables a) (onVariables a) := by
  intro m n hmn
  have ha := h hmn.env
  rw [onVariables, onVariables]
  generalize a m.env = r, a n.env = r' at ha ⊢
  cases ha with
  | ok hr => exact .ok ⟨hr.1, hr.2, hmn.output, hmn.input⟩
  | error hr => exact .error ⟨congrArg Halt.fault hr.1, hr.2, hmn.output, hmn.input⟩

theorem nextFields_like (pos : Position) :
    Lockstep (Machine.Like R) (nextFields pos) (nextFields pos) := by
  refine .bind ?_ fun _ => .pure _
  rintro ⟨env, output, input, trace⟩ ⟨env', output', input', trace'⟩ ⟨he, ho, hi⟩
  obtain rfl : input = input' := hi
  cases input with
  | nil => exact .error ⟨rfl, he, ho, rfl⟩
  | cons line rest => exact .ok ⟨rfl, he, ho, rfl⟩

/-- Frames may be added to machines that are related in one way and give machines that are
    related in another way, as long as this is undone when they are taken away. -/
theorem framed_like {a b : Exec α}
    (hpush : ∀ ⦃env env' : Environment⦄, env.Over R env' → env.push.Over S env'.push)
    (hpop : ∀ ⦃env env' : Environment⦄, env.Over S env' → env.pop.Over R env'.pop)
    (h : Lockstep (Machine.Like S) a b) : Lockstep (Machine.Like R) (framed a) (framed b) := by
  intro m n hmn
  have ha := @h m.push n.push ⟨hpush hmn.env, hmn.output, hmn.input⟩
  rw [framed, framed]
  generalize a m.push = r, b n.push = r' at ha ⊢
  cases ha with
  | ok hr => exact .ok ⟨hr.1, hpop hr.2.env, hr.2.output, hr.2.input⟩
  | error hr => exact .error ⟨hr.1, hpop hr.2.env, hr.2.output, hr.2.input⟩

end Exec

/-! ### Execution -/

section Execution

variable {writable : String → Prop} {R : Nat → List Frame → List Frame → Prop}

/-- All actions run in lockstep on machines with related frames. -/
theorem Environment.Simulation.layered (h : Simulation writable R) :
    Exec.Layered writable (fun n _ x => Lockstep (Over (R n)) x x)
      (fun n _ x => Lockstep (Machine.Like (R n)) x x) where
  closed n := {
    pure := .pure
    throw := .throw
    bind := Lockstep.bind_of_ok
    resolve := h.resolve n
    write := h.write n }
  pure := .pure
  throw := .throw
  bind := .bind
  executing _ := Exec.record_like _
  received _ := Exec.record_like _
  onVariables := Exec.onVariables_like
  declare hw _ _ := .modify fun _ _ hl => ⟨h.foldl_define hl.env hw _, hl.output, hl.input⟩
  print := Exec.print_like
  nextFields := Exec.nextFields_like
  framed := Exec.framed_like (fun _ _ => h.push) fun _ _ => h.pop_over

/-- An expression has the same value on machines with related frames, or stops for the same
    reason. -/
theorem Exec.eval_of_simulation (h : Environment.Simulation writable R) {e : Expr}
    (hw : ∀ name ∈ e.written, writable name) (n : Nat) :
    Lockstep (Machine.Like (R n)) (eval e) (eval e) :=
  h.layered.eval hw

/-- A block does the same on machines with related frames. -/
theorem Block.exec_of_simulation (h : Environment.Simulation writable R) {b : Block}
    (hw : ∀ name ∈ b.written, writable name) (limit n : Nat) :
    Lockstep (Machine.Like (R n)) (b.exec limit) (b.exec limit) :=
  b.exec_of_layered h.layered limit n hw

end Execution

end Tudlo
