import Tudlo.Machine.Execution

/-!
# What actions keep

An action on a machine leaves the machine in some state, whether it succeeds or
not (`stateAfter`). Many facts about execution say that this state agrees with
the one from before in some respect, a *view* of the state, and this is kept by
all the ways in which actions are put together (`Keeps`). A view can be of the
whole machine or only of its variables.

* `bind_apply_of_ok`, `bind_apply_of_error`: what one action after the other does;
* `Keeps.bind`: it keeps what both keep;
* `Keeps.onVariables`: an action on the variables.
-/

namespace Tudlo

section Keeps

variable {ε σ α β γ : Type}

/-! ### One action after the other -/

theorem bind_apply_of_ok {x : EStateM ε σ α} {f : α → EStateM ε σ β} {s s' : σ} {a : α}
    (h : x s = .ok a s') : (x >>= f) s = f a s' := by
  show EStateM.bind x f s = _
  rw [EStateM.bind, h]

theorem bind_apply_of_error {x : EStateM ε σ α} {f : α → EStateM ε σ β} {s s' : σ} {e : ε}
    (h : x s = .error e s') : (x >>= f) s = .error e s' := by
  show EStateM.bind x f s = _
  rw [EStateM.bind, h]

/-- Two actions succeed when the first one does, and then the second one. -/
theorem bind_apply_eq_ok {x : EStateM ε σ α} {f : α → EStateM ε σ β} {s s' : σ} {b : β}
    (h : (x >>= f) s = .ok b s') : ∃ a mid, x s = .ok a mid ∧ f a mid = .ok b s' := by
  cases hx : x s with
  | ok a mid =>
    rw [bind_apply_of_ok hx] at h
    exact ⟨a, mid, rfl, h⟩
  | error e mid =>
    rw [bind_apply_of_error hx] at h
    cases h

/-! ### The state that is left -/

/-- The state that an action leaves, whatever the end of the action is. -/
def stateAfter (x : EStateM ε σ α) (s : σ) : σ :=
  match x s with
  | .ok _ s' => s'
  | .error _ s' => s'

theorem stateAfter_of_ok {x : EStateM ε σ α} {s s' : σ} {a : α} (h : x s = .ok a s') :
    stateAfter x s = s' := by
  rw [stateAfter, h]

theorem stateAfter_of_error {x : EStateM ε σ α} {s s' : σ} {e : ε} (h : x s = .error e s') :
    stateAfter x s = s' := by
  rw [stateAfter, h]

theorem stateAfter_bind_of_ok {x : EStateM ε σ α} {f : α → EStateM ε σ β} {s s' : σ} {a : α}
    (h : x s = .ok a s') : stateAfter (x >>= f) s = stateAfter (f a) s' := by
  rw [stateAfter, bind_apply_of_ok h, stateAfter]

theorem stateAfter_bind_of_error {x : EStateM ε σ α} {f : α → EStateM ε σ β} {s s' : σ} {e : ε}
    (h : x s = .error e s') : stateAfter (x >>= f) s = s' :=
  stateAfter_of_error (bind_apply_of_error h)

/-- The state that the action leaves looks the same as the one it was started
    in. -/
def Keeps (view : σ → γ) (x : EStateM ε σ α) : Prop :=
  ∀ s, view (stateAfter x s) = view s

namespace Keeps

variable {view : σ → γ}

theorem of_ok {x : EStateM ε σ α} (h : Keeps view x) {s s' : σ} {a : α} (hx : x s = .ok a s') :
    view s' = view s := by
  rw [← h s, stateAfter_of_ok hx]

theorem of_error {x : EStateM ε σ α} (h : Keeps view x) {s s' : σ} {e : ε}
    (hx : x s = .error e s') : view s' = view s := by
  rw [← h s, stateAfter_of_error hx]

protected theorem pure (a : α) : Keeps view (pure a : EStateM ε σ α) :=
  fun _ => rfl

protected theorem throw (e : ε) : Keeps view (throw e : EStateM ε σ α) :=
  fun _ => rfl

/-- What a change keeps. -/
protected theorem modify {f : σ → σ} (h : ∀ s, view (f s) = view s) :
    Keeps view (modify f : EStateM ε σ Unit) :=
  h

theorem bind_of_ok {x : EStateM ε σ α} {f : α → EStateM ε σ β} (hx : Keeps view x)
    (hf : ∀ a s s', x s = .ok a s' → Keeps view (f a)) : Keeps view (x >>= f) := by
  intro s
  cases h : x s with
  | ok a s' => rw [stateAfter_bind_of_ok h, hf a s s' h, hx.of_ok h]
  | error e s' => rw [stateAfter_bind_of_error h, hx.of_error h]

protected theorem bind {x : EStateM ε σ α} {f : α → EStateM ε σ β} (hx : Keeps view x)
    (hf : ∀ a, Keeps view (f a)) : Keeps view (x >>= f) :=
  hx.bind_of_ok fun a _ _ _ => hf a

/-- An action on the variables keeps what it keeps of them. -/
protected theorem onVariables {view : Environment → γ} {x : EStateM Fault Environment α}
    (h : Keeps view x) : Keeps (fun m : Machine => view m.env) (Exec.onVariables x) := by
  intro m
  cases hx : x m.env with
  | ok a env =>
    rw [stateAfter_of_ok (by rw [Exec.onVariables, hx])]
    exact h.of_ok hx
  | error f env =>
    rw [stateAfter_of_error (by rw [Exec.onVariables, hx])]
    exact h.of_error hx

end Keeps

end Keeps

/-! ### Recording and evaluating -/

namespace Exec

variable {e : Expr} {m : Machine} {env : Environment}

theorem record_apply (event : Event) (m : Machine) : record event m = .ok () (m.emit event) :=
  rfl

theorem eval_of_ok {value : Value} (h : e.eval m.env = .ok value env) :
    eval e m = .ok value { m with env } := by
  rw [eval, onVariables, h]

theorem eval_of_error {f : Fault} (h : e.eval m.env = .error f env) :
    eval e m = .error (.fault f) { m with env } := by
  rw [eval, onVariables, h]

end Exec

section Wrapped

variable {α : Type} {m m' : Machine} {a : α}

theorem Exec.onVariables_of_ok {x : EStateM Fault Environment α} {env : Environment}
    (h : x m.env = .ok a env) : Exec.onVariables x m = .ok a { m with env } := by
  rw [Exec.onVariables, h]

theorem Exec.onVariables_of_error {x : EStateM Fault Environment α} {env : Environment} {f : Fault}
    (h : x m.env = .error f env) : Exec.onVariables x m = .error (.fault f) { m with env } := by
  rw [Exec.onVariables, h]

theorem Exec.framed_of_ok {x : Exec α} (h : x m.push = .ok a m') :
    Exec.framed x m = .ok a m'.pop := by
  rw [Exec.framed, h]

theorem Exec.framed_of_error {x : Exec α} {halt : Halt} (h : x m.push = .error halt m') :
    Exec.framed x m = .error halt m'.pop := by
  rw [Exec.framed, h]

/-- The frame is taken away again, whatever the end of the action is. -/
theorem Exec.stateAfter_framed (x : Exec α) (m : Machine) :
    stateAfter (Exec.framed x) m = (stateAfter x m.push).pop := by
  cases h : x m.push with
  | ok a m' => rw [stateAfter_of_ok h, stateAfter_of_ok (Exec.framed_of_ok h)]
  | error halt m' => rw [stateAfter_of_error h, stateAfter_of_error (Exec.framed_of_error h)]

end Wrapped

theorem Statement.execAll_singleton (limit : Nat) (s : Statement) :
    Statement.execAll limit [s] = s.exec limit := by
  rw [Statement.execAll, Statement.execAll, bind_pure_unit]

/-! ### What the outside gets to see -/

/-- All that the outside gets to see of a machine, which is everything but the
    variables. -/
def Machine.outside (m : Machine) : String × List String × Array Event :=
  (m.output, m.input, m.trace)

namespace Exec

theorem onVariables_keeps_outside {α : Type} (x : EStateM Fault Environment α) :
    Keeps Machine.outside (onVariables x) := by
  intro m
  cases h : x m.env with
  | ok a env =>
    rw [stateAfter_of_ok (onVariables_of_ok h)]
    rfl
  | error f env =>
    rw [stateAfter_of_error (onVariables_of_error h)]
    rfl

theorem eval_keeps_outside (e : Expr) : Keeps Machine.outside (eval e) :=
  onVariables_keeps_outside e.eval

theorem declare_keeps_outside (type : ScalarType) (names : List String) (value : Value) :
    Keeps Machine.outside (declare type names value) :=
  .modify fun _ => rfl

end Exec

/-! ### Programs -/

namespace Program

variable {limit : Nat} {program : Program} {m m' : Machine}

theorem exec_of_ok (h : Statement.execAll limit program m = .ok () m') :
    program.exec limit m = .ok () (m'.emit (.finished m'.output.utf8ByteSize true)) := by
  rw [exec, h]

theorem exec_of_fault {f : Fault} (h : Statement.execAll limit program m = .error (.fault f) m') :
    program.exec limit m =
      .error (.fault f) (m'.emit (.finished m'.output.utf8ByteSize false)) := by
  rw [exec, h]

theorem exec_of_exhausted (h : Statement.execAll limit program m = .error .exhausted m') :
    program.exec limit m = .error .exhausted m' := by
  rw [exec, h]

theorem exec_eq_ok (h : program.exec limit m = .ok () m') :
    ∃ m₁, Statement.execAll limit program m = .ok () m₁ ∧
      m' = m₁.emit (.finished m₁.output.utf8ByteSize true) := by
  rw [exec] at h
  split at h
  · rename_i m₁ hx
    exact ⟨m₁, hx, (EStateM.Result.ok.inj h).2.symm⟩
  · cases h
  · cases h

theorem exec_eq_fault {f : Fault} (h : program.exec limit m = .error (.fault f) m') :
    ∃ m₁, Statement.execAll limit program m = .error (.fault f) m₁ ∧
      m' = m₁.emit (.finished m₁.output.utf8ByteSize false) := by
  rw [exec] at h
  split at h
  · cases h
  · rename_i f' m₁ hx
    cases h
    exact ⟨m₁, hx, rfl⟩
  · cases h

/-- Apart from the record, a program does what its statements do. -/
theorem view_exec {γ : Type} (view : Machine → γ) (hv : ∀ m e, view (m.emit e) = view m)
    (limit : Nat) (program : Program) (m : Machine) : view (stateAfter (program.exec limit) m) =
      view (stateAfter (Statement.execAll limit program) m) := by
  cases h : Statement.execAll limit program m with
  | ok u m' => rw [stateAfter_of_ok h, stateAfter_of_ok (exec_of_ok h), hv]
  | error halt m' =>
    cases halt with
    | fault f => rw [stateAfter_of_error h, stateAfter_of_error (exec_of_fault h), hv]
    | exhausted => rw [stateAfter_of_error h, stateAfter_of_error (exec_of_exhausted h)]

end Program

/-! ### Looking up and assigning -/

namespace Environment

variable {env env' : Environment} {name : String} {pos : Position}

theorem bind_get {α : Type} (f : Environment → EStateM Fault Environment α)
    (env : Environment) : (get >>= f) env = f env env :=
  rfl

theorem resolve_of_find? {v : Variable} (h : env.find? name = some v) :
    resolve name pos env = .ok v env := by
  rw [resolve, bind_get, h]
  rfl

theorem resolve_of_none (h : env.find? name = none) :
    resolve name pos env = .error ⟨.unknownVariable name, pos⟩ env := by
  rw [resolve, bind_get, h]
  rfl

theorem write_of_assign? {value : Value} (h : env.assign? name value = some env') :
    write name value pos env = .ok () env' := by
  rw [write, bind_get, h]
  rfl

theorem write_of_none {value : Value} (h : env.assign? name value = none) :
    write name value pos env = .error ⟨.unknownVariable name, pos⟩ env := by
  rw [write, bind_get, h]
  rfl

end Environment

/-- The value of a name is that of the variable it stands for. -/
theorem Expr.eval_var_of_find? {env : Environment} {name : String} {v : Variable}
    (h : env.find? name = some v) (pos : Position) :
    (Expr.var name pos).eval env = .ok v.value env := by
  rw [Expr.eval, bind_apply_of_ok (Environment.resolve_of_find? h)]
  rfl

/-! ### Reading fields -/

namespace Exec

variable {pos : Position} {env env' : Environment} {values : List (String × Value)}

/-- Values are read for the given names only. -/
theorem names_of_readFields {fields : List (String × List Char)}
    (h : readFields pos fields env = .ok values env') :
    values.map Prod.fst = fields.map Prod.fst := by
  induction fields generalizing env env' values with
  | nil =>
    obtain ⟨rfl, -⟩ := EStateM.Result.ok.inj h
    rfl
  | cons p fields ih =>
    obtain ⟨name, field⟩ := p
    obtain ⟨v, env₁, -, h⟩ := bind_apply_eq_ok h
    cases hr : v.type.read? field with
    | none =>
      simp only [hr] at h
      cases h
    | some value =>
      simp only [hr] at h
      obtain ⟨others, env₂, ho, h⟩ := bind_apply_eq_ok h
      obtain ⟨rfl, -⟩ := EStateM.Result.ok.inj h
      rw [List.map_cons, List.map_cons, ih ho]

/-- Values are read for no names but those that the fields were put beside. -/
theorem mem_of_readFields_zip {names : List String} {fields : List (List Char)}
    (h : readFields pos (names.zip fields) env = .ok values env') : ∀ p ∈ values, p.1 ∈ names := by
  intro p hp
  have hm : p.1 ∈ values.map Prod.fst := List.mem_map_of_mem hp
  rw [names_of_readFields h] at hm
  obtain ⟨⟨name, field⟩, hz, hq⟩ := List.mem_map.1 hm
  rw [← hq]
  exact (List.of_mem_zip hz).1

end Exec

end Tudlo
