import Tudlo.Proofs.Machine.Blame
import Tudlo.Proofs.Machine.Visits

/-!
# Execution moment by moment

The execution of a program says where the program ends up. To speak about all that happens
on the way, it is cut into *moments* here. At each moment there are *jobs* that are still to
be done, and values that were computed for them, and the next moment is the one after the
first job (`Moment.next`). A job is as small as the language allows: one operation, one
assignment, one name that is declared or read into. After a fault the jobs that are left are
given up one by one, and the frames that they are in are taken away.

No limit is needed for this, as a loop is only a job that asks for its condition again. The
moments come to the same end as the execution, if to any, and on the way they pass all the
statements that it executes, on the same machines.

* `Performs`: jobs do what an action does, shown for each way to put actions together;
* `Program.ends_iff`: a program comes to an end, with a fault or without one, if and only if
  its moments do;
* `Program.passes_of_visits`: the statements that are executed.
-/

namespace Tudlo

/-! ### Jobs -/

/-- Something that is still to be done. -/
inductive Job where
  /-- Computes an expression. -/
  | compute (e : Expr)
  /-- Assigns the last value, which stays. -/
  | assign (name : String) (pos : Position)
  /-- Applies an operator to the last value. -/
  | unary (op : UnaryOp) (pos : Position)
  /-- Applies an operator to the last two values. -/
  | binary (op : BinaryOp) (pos : Position)
  /-- Forgets the last value. -/
  | drop
  /-- Prints the last value. -/
  | print
  /-- Declares names with the last value. -/
  | declare (type : ScalarType) (names : List String)
  /-- Declares one name. -/
  | define (type : ScalarType) (name : String) (value : Value)
  /-- Reads a line of input. -/
  | receive (names : List String) (pos : Position)
  /-- Assigns one value that was read. -/
  | store (name : String) (value : Value) (pos : Position)
  /-- Records that a line was read. -/
  | received (count : Nat)
  /-- Executes a statement. -/
  | execute (s : Statement)
  /-- Adds a frame. -/
  | enter
  /-- Takes the innermost frame away. -/
  | leave
  /-- Decides on the last value. -/
  | choose (whenTrue : Block) (whenFalse : Option Block)
  /-- Asks for the condition of a loop. -/
  | ask (condition : Expr) (step : Statement) (body : Block)
  /-- Decides on the last value whether the loop goes round. -/
  | again (condition : Expr) (step : Statement) (body : Block)

/-- The jobs of a block. -/
def Block.jobs (b : Block) : List Job :=
  .enter :: (b.statements.map .execute ++ [.leave])

/-- The jobs of a block, if there is one. -/
def Block.jobsAny : Option Block → List Job
  | none => []
  | some body => body.jobs

/-- The jobs of a statement, after it is recorded. -/
def Statement.jobs : Statement → List Job
  | .declare type names (some e) _ => [.compute e, .declare type names]
  | .declare type names none _ => names.map fun name => .define type name type.zero
  | .print value _ => [.compute value, .print]
  | .read names pos => [.receive names pos]
  | .block body => body.jobs
  | .choose condition whenTrue whenFalse _ => [.compute condition, .choose whenTrue whenFalse]
  | .loop initial condition step body _ =>
    [.enter, .execute initial, .ask condition step body, .leave]
  | .compute expr _ => [.compute expr, .drop]

/-- The values that the fields of the next line are read as, each with the name it is read
    for. -/
def Exec.readLine (names : List String) (pos : Position) : Exec (List (String × Value)) := do
  let fields := inputFields (← nextLine pos)
  if fields.length = names.length then onVariables (readFields pos (names.zip fields))
  else fail (.fieldCount names.length fields.length) pos

/-- What a job does, given the values that were computed, the last one first: the jobs that
    come in its place and the values then. A job that lacks its values does nothing. -/
def Job.act : Job → List Value → Exec (List Job × List Value)
  | .compute (.literal value _), vs => return ([], value :: vs)
  | .compute (.var name pos), vs => do
    let v ← Exec.onVariables (Environment.resolve name pos)
    return ([], v.value :: vs)
  | .compute (.assign name e pos), vs => return ([.compute e, .assign name pos], vs)
  | .compute (.unary op e pos), vs => return ([.compute e, .unary op pos], vs)
  | .compute (.binary op l r pos), vs => return ([.compute l, .compute r, .binary op pos], vs)
  | .assign name pos, v :: vs => do
    Exec.onVariables (Environment.write name v pos)
    return ([], v :: vs)
  | .unary op pos, v :: vs => do
    let w ← Exec.onVariables (blame pos (op.apply v))
    return ([], w :: vs)
  | .binary op pos, r :: l :: vs => do
    let v ← Exec.onVariables (blame pos (op.apply l r))
    return ([], v :: vs)
  | .drop, _ :: vs => return ([], vs)
  | .print, v :: vs => do
    Exec.print v.display
    return ([], vs)
  | .declare type names, v :: vs => return (names.map fun name => .define type name v, vs)
  | .define type name v, vs => do
    Exec.declare type [name] v
    return ([], vs)
  | .receive names pos, vs => do
    let values ← Exec.readLine names pos
    return (values.map (fun p => .store p.1 p.2 pos) ++ [.received names.length], vs)
  | .store name v pos, vs => do
    Exec.onVariables (Environment.write name v pos)
    return ([], vs)
  | .received count, vs => do
    Exec.record (.received count)
    return ([], vs)
  | .execute s, vs => do
    Exec.record (.executing s.pos)
    return (s.jobs, vs)
  | .enter, vs => do
    modify Machine.push
    return ([], vs)
  | .leave, vs => do
    modify Machine.pop
    return ([], vs)
  | .choose whenTrue whenFalse, v :: vs =>
    return (if v.truthy then whenTrue.jobs else Block.jobsAny whenFalse, vs)
  | .ask condition step body, vs =>
    return ([.compute condition, .again condition step body], vs)
  | .again condition step body, v :: vs =>
    return (if v.truthy then body.jobs ++ [.execute step, .ask condition step body] else [], vs)
  | _, vs => return ([], vs)

/-- What is left to do of a job after a fault. -/
def Job.giveUp : Job → Machine → Machine
  | .leave, m => m.pop
  | _, m => m

/-! ### Moments -/

/-- A moment of an execution. -/
structure Moment where
  /-- What is still to be done, in order. -/
  jobs : List Job
  /-- The values that were computed for these jobs, the last one first. -/
  values : List Value
  /-- The machine. -/
  machine : Machine
  /-- The fault, once there is one. -/
  fault : Option Fault

namespace Moment

/-- The moment after the first job. When there are no jobs, nothing happens any more. -/
def next (c : Moment) : Moment :=
  match c.jobs, c.fault with
  | [], _ => c
  | job :: jobs, none =>
    match job.act c.values c.machine with
    | .ok (new, values) machine => ⟨new ++ jobs, values, machine, none⟩
    | .error (.fault f) machine => ⟨jobs, [], machine, some f⟩
    | .error .exhausted _ => c
  | job :: jobs, some f => ⟨jobs, c.values, job.giveUp c.machine, some f⟩

/-- The moment `n` jobs later. -/
def after (c : Moment) : (n : Nat) → Moment
  | 0 => c
  | n + 1 => c.next.after n

/-- The first moment of a program. -/
def first (program : Program) (m : Machine) : Moment :=
  ⟨program.map .execute, [], m, none⟩

theorem after_add (c : Moment) (n k : Nat) : c.after (n + k) = (c.after n).after k := by
  induction n generalizing c with
  | zero => rw [Nat.zero_add, after]
  | succ n ih => rw [Nat.succ_add, after, after, ih]

/-- Without jobs nothing changes. -/
theorem after_of_nil {c : Moment} (h : c.jobs = []) (n : Nat) : c.after n = c := by
  induction n with
  | zero => rfl
  | succ n ih =>
    have hn : c.next = c := by
      rw [next, h]
    rw [after, hn, ih]

/-- There is at most one end. -/
theorem after_eq_of_nil {c : Moment} {n k : Nat} (hn : (c.after n).jobs = [])
    (hk : (c.after k).jobs = []) : c.after n = c.after k := by
  rw [← after_of_nil hn k, ← after_of_nil hk n, ← after_add, ← after_add, Nat.add_comm]

/-- While there are jobs, there were. -/
theorem jobs_ne_nil_of_le {c : Moment} {n k : Nat} (hn : n ≤ k) (h : (c.after k).jobs ≠ []) :
    (c.after n).jobs ≠ [] := by
  intro hs
  obtain ⟨d, rfl⟩ := Nat.exists_eq_add_of_le hn
  rw [after_add, after_of_nil hs] at h
  exact h hs

variable {job : Job} {jobs new : List Job} {vs vs' : List Value} {m m' : Machine} {f : Fault}

theorem next_of_ok (h : job.act vs m = .ok (new, vs') m') :
    next ⟨job :: jobs, vs, m, none⟩ = ⟨new ++ jobs, vs', m', none⟩ := by
  rw [next]
  simp only [h]

theorem next_of_fault (h : job.act vs m = .error (.fault f) m') :
    next ⟨job :: jobs, vs, m, none⟩ = ⟨jobs, [], m', some f⟩ := by
  rw [next]
  simp only [h]

/-- After a fault, jobs are given up. -/
theorem after_of_fault (h : ∀ job ∈ jobs, job ≠ .leave) (js : List Job) :
    after ⟨jobs ++ js, [], m, some f⟩ jobs.length = ⟨js, [], m, some f⟩ := by
  induction jobs with
  | nil => rfl
  | cons job jobs ih =>
    rw [List.forall_mem_cons] at h
    have hg : job.giveUp m = m := by
      cases job with
      | leave => exact absurd rfl h.1
      | _ => rfl
    have hn : next ⟨job :: (jobs ++ js), [], m, some f⟩ = ⟨jobs ++ js, [], m, some f⟩ := by
      rw [next]
      simp only [hg]
    rw [List.length_cons, List.cons_append, after, hn, ih h.2]

end Moment

/-! ### The end of an action -/

/-- From the moment `c` on, the jobs before `js` come to the same end as an action. If the
    action was given up, they are not done after `k` of them. -/
inductive Leads {α : Type} (k : Nat) (c : Moment) (js : List Job) (out : α → List Value) :
    EStateM.Result Halt Machine α → Prop
  | ok {a : α} {m : Machine} (n : Nat) (h : c.after n = ⟨js, out a, m, none⟩) :
      Leads k c js out (.ok a m)
  | fault {f : Fault} {m : Machine} (n : Nat) (h : c.after n = ⟨js, [], m, some f⟩) :
      Leads k c js out (.error (.fault f) m)
  | exhausted {m : Machine} (h : (c.after k).jobs ≠ []) :
      Leads k c js out (.error .exhausted m)

/-- The jobs do what the action does, whatever comes after them. With the result `a`, the
    values then are `out a`. -/
def Performs {α : Type} (k : Nat) (jobs : List Job) (vs : List Value) (x : Exec α)
    (out : α → List Value) : Prop :=
  ∀ js m, Leads k ⟨jobs ++ js, vs, m, none⟩ js out (x m)

section Performs

variable {α β : Type} {k : Nat} {c : Moment} {job : Job} {jobs jobs' js : List Job}
  {vs : List Value} {x : Exec α} {out : α → List Value}

theorem Leads.of_next {r : EStateM.Result Halt Machine α} (h : Leads k c.next js out r) :
    Leads (k + 1) c js out r := by
  cases h with
  | ok n h => exact .ok (n + 1) h
  | fault n h => exact .fault (n + 1) h
  | exhausted h => exact .exhausted h

theorem Leads.mono {r : EStateM.Result Halt Machine α} {l : Nat} (hl : l ≤ k)
    (h : Leads k c js out r) : Leads l c js out r := by
  cases h with
  | ok n h => exact .ok n h
  | fault n h => exact .fault n h
  | exhausted h => exact .exhausted (Moment.jobs_ne_nil_of_le hl h)

theorem Leads.of_after {r : EStateM.Result Halt Machine α} {n : Nat}
    (h : Leads k (c.after n) js out r) : Leads k c js out r := by
  cases h with
  | ok n' h => exact .ok (n + n') ((c.after_add n n').trans h)
  | fault n' h => exact .fault (n + n') ((c.after_add n n').trans h)
  | exhausted h =>
    rw [← Moment.after_add] at h
    exact .exhausted (Moment.jobs_ne_nil_of_le (Nat.le_add_left k n) h)

namespace Performs

theorem mono {l : Nat} (hl : l ≤ k) (h : Performs k jobs vs x out) : Performs l jobs vs x out :=
  fun js m => (h js m).mono hl

/-- Nothing has to be done for a result that is there. -/
protected theorem pure {a : α} (h : out a = vs) : Performs k [] vs (pure a) out :=
  fun _ _ => .ok 0 (h ▸ rfl)

/-- When the first action fails, the jobs of the second one are given up. -/
protected theorem bind {f : α → Exec β} {out' : β → List Value} (hx : Performs k jobs vs x out)
    (hl : ∀ job ∈ jobs', job ≠ .leave) (hf : ∀ a, Performs k jobs' (out a) (f a) out') :
    Performs k (jobs ++ jobs') vs (x >>= f) out' := by
  intro js m
  have h := hx (jobs' ++ js) m
  rw [← List.append_assoc] at h
  generalize hr : x m = r at h
  cases h with
  | @ok a m' n h =>
    rw [bind_apply_of_ok hr]
    exact .of_after (h ▸ hf a js m')
  | @fault f m' n h =>
    rw [bind_apply_of_error hr]
    exact .fault (n + jobs'.length) (by rw [Moment.after_add, h, Moment.after_of_fault hl])
  | exhausted h =>
    rw [bind_apply_of_error hr]
    exact .exhausted h

/-- One job, and then the others. -/
protected theorem cons {f : α → Exec β} {out' : β → List Value} (hx : Performs k [job] vs x out)
    (hl : ∀ job ∈ jobs', job ≠ .leave) (hf : ∀ a, Performs k jobs' (out a) (f a) out') :
    Performs k (job :: jobs') vs (x >>= f) out' :=
  hx.bind hl hf

end Performs

/-! ### The first job -/

/-- The action is never given up. -/
abbrev Exec.NeverExhausted (x : Exec α) : Prop :=
  FailsWith (· ≠ .exhausted) x

theorem Exec.onVariables_neverExhausted (x : EStateM Fault Environment α) :
    NeverExhausted (onVariables x) := by
  intro m halt m' h
  cases hx : x m.env with
  | ok a env =>
    rw [onVariables_of_ok hx] at h
    cases h
  | error f env =>
    rw [onVariables_of_error hx] at h
    cases h
    exact fun h => by cases h

theorem Exec.nextLine_neverExhausted (pos : Position) : NeverExhausted (nextLine pos) := by
  intro m halt m' h
  obtain ⟨env, output, input, trace⟩ := m
  cases input with
  | cons line rest => cases h
  | nil =>
    obtain ⟨rfl, -⟩ := EStateM.Result.error.inj h
    exact fun h => by cases h

theorem Exec.readLine_neverExhausted (names : List String) (pos : Position) :
    NeverExhausted (readLine names pos) := by
  refine .bind (nextLine_neverExhausted pos) fun _ line _ _ => ?_
  dsimp only
  split
  · exact onVariables_neverExhausted _
  · exact .throw fun h => by cases h

namespace Performs

section FirstJob

variable {y : Exec β} {f : β → Exec α} {new : β → List Job} {vs' : β → List Value}

/-- The first job is the first step of an action, and the new jobs do the rest. That makes
    one job more that is done before the action is given up. -/
theorem of_act_succ (ha : job.act vs = (do let b ← y; return (new b, vs' b)))
    (hy : y.NeverExhausted) (hf : ∀ b, Performs k (new b) (vs' b) (f b) out) :
    Performs (k + 1) [job] vs (y >>= f) out := by
  intro js m
  cases hr : y m with
  | ok b m' =>
    have hn : Moment.next ⟨job :: js, vs, m, none⟩ = ⟨new b ++ js, vs' b, m', none⟩ :=
      Moment.next_of_ok (ha ▸ bind_apply_of_ok hr)
    rw [bind_apply_of_ok hr]
    exact .of_next (hn ▸ hf b js m')
  | error halt m' =>
    rw [bind_apply_of_error hr]
    cases halt with
    | fault f => exact .fault 1 (Moment.next_of_fault (ha ▸ bind_apply_of_error hr))
    | exhausted => exact absurd rfl (hy hr)

theorem of_act (ha : job.act vs = (do let b ← y; return (new b, vs' b)))
    (hy : y.NeverExhausted) (hf : ∀ b, Performs k (new b) (vs' b) (f b) out) :
    Performs k [job] vs (y >>= f) out :=
  (of_act_succ ha hy hf).mono (Nat.le_succ k)

end FirstJob

/-- A job that is the whole action. -/
theorem finish {vs' : α → List Value} (ha : job.act vs = (do let a ← x; return ([], vs' a)))
    (hx : x.NeverExhausted) (ho : ∀ a, out a = vs' a) : Performs k [job] vs x out := by
  have h := of_act (k := k) ha hx fun a => .pure (ho a)
  rwa [bind_pure] at h

/-- A job that only makes way for others. -/
theorem of_pure_succ {new : List Job} {vs' : List Value} (ha : job.act vs = pure (new, vs'))
    (h : Performs k new vs' x out) : Performs (k + 1) [job] vs x out := by
  have hx := of_act_succ (f := fun _ => x) (ha.trans (pure_bind () fun _ => pure (new, vs')).symm)
    (.pure ()) fun _ => h
  rwa [pure_bind] at hx

theorem of_pure {new : List Job} {vs' : List Value} (ha : job.act vs = pure (new, vs'))
    (h : Performs k new vs' x out) : Performs k [job] vs x out :=
  (of_pure_succ ha h).mono (Nat.le_succ k)

/-- The frame is taken away also after a fault. -/
protected theorem framed (h : Performs k jobs vs x out) :
    Performs k (.enter :: (jobs ++ [.leave])) vs (Exec.framed x) out := by
  intro js m
  have hn : Moment.next ⟨.enter :: (jobs ++ [.leave]) ++ js, vs, m, none⟩ =
      ⟨jobs ++ (.leave :: js), vs, m.push, none⟩ := by
    rw [List.cons_append, List.append_assoc]
    rfl
  refine Leads.mono (Nat.le_succ k) (.of_next (hn ▸ ?_))
  have hl := h (.leave :: js) m.push
  generalize hr : x m.push = r at hl
  cases hl with
  | @ok a m' n hl =>
    rw [Exec.framed_of_ok hr]
    exact .of_after (n := n) (hl ▸ .ok 1 rfl)
  | @fault f m' n hl =>
    rw [Exec.framed_of_error hr]
    exact .of_after (n := n) (hl ▸ .fault 1 rfl)
  | exhausted hl =>
    rw [Exec.framed_of_error hr]
    exact .exhausted hl

end Performs

end Performs

/-! ### Expressions -/

namespace Exec

theorem onVariables_bind {α β : Type} (x : EStateM Fault Environment α)
    (f : α → EStateM Fault Environment β) :
    onVariables (x >>= f) = (onVariables x >>= fun a => onVariables (f a)) := by
  funext m
  cases hx : x m.env with
  | ok a env =>
    rw [bind_apply_of_ok (onVariables_of_ok hx), onVariables, onVariables, bind_apply_of_ok hx]
  | error f env =>
    rw [bind_apply_of_error (onVariables_of_error hx), onVariables, bind_apply_of_error hx]

end Exec

section Statements

variable {k : Nat}

/-- The value of an expression is the last value then. -/
theorem Exec.performs_eval (e : Expr) (vs : List Value) :
    Performs k [.compute e] vs (Exec.eval e) (· :: vs) := by
  induction e generalizing vs with
  | literal value pos => exact .of_pure rfl (.pure rfl)
  | var name pos =>
    rw [Exec.eval, Expr.eval, Exec.onVariables_bind]
    exact .of_act rfl (Exec.onVariables_neverExhausted _) fun _ => .pure rfl
  | assign name e pos ih =>
    rw [Exec.eval, Expr.eval, Exec.onVariables_bind]
    refine .of_pure rfl (.cons (ih vs) (by simp) fun v => ?_)
    rw [Exec.onVariables_bind]
    exact .of_act rfl (Exec.onVariables_neverExhausted _) fun _ => .pure rfl
  | unary op e pos ih =>
    rw [Exec.eval, Expr.eval, Exec.onVariables_bind]
    refine .of_pure rfl (.cons (ih vs) (by simp) fun v => ?_)
    exact .finish rfl (Exec.onVariables_neverExhausted _) fun _ => rfl
  | binary op l r pos ihl ihr =>
    rw [Exec.eval, Expr.eval, Exec.onVariables_bind]
    refine .of_pure rfl (.cons (ihl vs) (by simp) fun v => ?_)
    rw [Exec.onVariables_bind]
    refine .cons (ihr (v :: vs)) (by simp) fun w => ?_
    exact .finish rfl (Exec.onVariables_neverExhausted _) fun _ => rfl

/-! ### Statements -/

theorem Exec.performs_declare (type : ScalarType) (names : List String) (value : Value)
    (vs : List Value) : Performs k (names.map fun name => .define type name value) vs
      (Exec.declare type names value) fun _ => vs := by
  induction names with
  | nil => exact .pure rfl
  | cons name names ih =>
    have hd : Exec.declare type (name :: names) value =
        (do Exec.declare type [name] value; Exec.declare type names value) := rfl
    have h : Performs k [.define type name value] vs (Exec.declare type [name] value)
        fun _ => vs := .finish rfl (.modify _) fun _ => rfl
    rw [hd]
    exact h.cons (by simp) fun _ => ih

theorem Exec.performs_writeFields (pos : Position) (values : List (String × Value))
    (vs : List Value) : Performs k (values.map fun p => .store p.1 p.2 pos) vs
      (Exec.onVariables (Exec.writeFields pos values)) fun _ => vs := by
  induction values with
  | nil => exact .pure rfl
  | cons p values ih =>
    have h : Performs k [.store p.1 p.2 pos] vs
        (Exec.onVariables (Environment.write p.1 p.2 pos)) fun _ => vs :=
      .finish rfl (Exec.onVariables_neverExhausted _) fun _ => rfl
    rw [Exec.writeFields, Exec.onVariables_bind]
    exact h.cons (List.forall_mem_map.2 fun _ _ h => by cases h) fun _ => ih

/-- A line of input is read as a whole before anything is assigned. -/
theorem Exec.receive_eq (names : List String) (pos : Position) : Exec.receive names pos = (do
    let values ← Exec.readLine names pos
    Exec.onVariables (Exec.writeFields pos values)
    Exec.record (.received names.length)) := by
  rw [Exec.receive, Exec.readLine, bind_assoc]
  refine bind_congr fun line => ?_
  dsimp only
  split
  · rw [Exec.onVariables_bind, bind_assoc]
  · rfl

theorem Exec.performs_receive (names : List String) (pos : Position) (vs : List Value) :
    Performs k [.receive names pos] vs (Exec.receive names pos) fun _ => vs := by
  rw [Exec.receive_eq]
  refine .of_act rfl (Exec.readLine_neverExhausted names pos) fun values => ?_
  refine .bind (Exec.performs_writeFields pos values vs) (by simp) fun _ => ?_
  exact .finish rfl (.modify _) fun _ => rfl

/-- A loop goes round as long as its condition holds. Each time it asks for the condition,
    that is one job. -/
theorem Exec.performs_rounds (condition : Expr) {step : Statement} {body : Block}
    {round : Exec Unit}
    (hr : ∀ vs, Performs k (body.jobs ++ [.execute step]) vs round fun _ => vs) {n : Nat}
    (hn : n ≤ k) (vs : List Value) : Performs n [.ask condition step body] vs
      (Exec.rounds (do return (← Exec.eval condition).truthy) round n) fun _ => vs := by
  induction n generalizing vs with
  | zero => exact fun js m => .exhausted (List.cons_ne_nil _ _)
  | succ n ih =>
    rw [Exec.rounds, bind_assoc]
    -- The job that asks makes up for the round that is used.
    refine .of_pure_succ rfl (.cons (Exec.performs_eval condition vs) (by simp) fun v => ?_)
    rw [pure_bind]
    refine .of_pure rfl ?_
    split
    · have hn' := Nat.le_of_succ_le hn
      have ha := ((hr vs).mono hn').bind (by simp) fun _ => ih hn' vs
      rwa [List.append_assoc] at ha
    · exact .pure rfl

/-- What a round does, from what the body and the step of a loop do. -/
theorem Block.performs_round {body : Block} {step : Statement} {x y : Exec Unit}
    (hb : ∀ vs, Performs k body.jobs vs x fun _ => vs)
    (hs : ∀ vs, Performs k [.execute step] vs y fun _ => vs) (vs : List Value) :
    Performs k (body.jobs ++ [.execute step]) vs (do x; y) fun _ => vs :=
  (hb vs).bind (by simp) fun _ => hs vs

/-- A statement does what its jobs do, if its parts do. -/
theorem Statement.performs_inductive (limit : Nat) : Statement.Inductive
    (fun s => ∀ vs, Performs limit [.execute s] vs (s.exec limit) fun _ => vs)
    (fun b => ∀ vs, Performs limit b.jobs vs (b.exec limit) fun _ => vs)
    (fun ss => ∀ vs, Performs limit (ss.map .execute) vs (Statement.execAll limit ss)
      fun _ => vs) where
  declare type names initial pos vs := by
    cases initial with
    | none =>
      exact .of_act rfl (.modify _) fun _ => Exec.performs_declare type names type.zero vs
    | some e =>
      exact .of_act rfl (.modify _) fun _ => .cons (Exec.performs_eval e vs) (by simp) fun v =>
        .of_pure rfl (Exec.performs_declare type names v vs)
  print value pos vs :=
    .of_act rfl (.modify _) fun _ => .cons (Exec.performs_eval value vs) (by simp) fun _ =>
      .finish rfl (.modify _) fun _ => rfl
  read names pos vs := .of_act rfl (.modify _) fun _ => Exec.performs_receive names pos vs
  block ih vs := .of_act rfl (.modify _) fun _ => ih vs
  choose condition {whenTrue whenFalse} pos iht ihf vs := by
    refine .of_act rfl (.modify _) fun _ =>
      .cons (Exec.performs_eval condition vs) (by simp) fun v => .of_pure rfl ?_
    split
    · exact iht vs
    · cases whenFalse with
      | none => exact .pure rfl
      | some body => exact ihf body rfl vs
  loop {initial} condition {step body} pos ihi ihs ihb vs := by
    refine .of_act rfl (.modify _) fun _ => ?_
    have hr := Block.performs_round ihb ihs
    have hi := (ihi vs).cons (by simp) fun _ =>
      Exec.performs_rounds condition hr (Nat.le_refl limit) vs
    exact hi.framed
  compute expr pos vs :=
    .of_act rfl (.modify _) fun _ => .cons (Exec.performs_eval expr vs) (by simp) fun v =>
      .of_pure rfl (.pure rfl)
  body _ ih vs := (ih vs).framed
  nil _ := .pure rfl
  cons ihs ihr vs := (ihs vs).cons (by simp) fun _ => ihr vs

theorem Statement.performs_exec (limit : Nat) (s : Statement) (vs : List Value) :
    Performs limit [.execute s] vs (s.exec limit) fun _ => vs :=
  s.of_inductive (Statement.performs_inductive limit) vs

theorem Block.performs_exec (limit : Nat) (b : Block) (vs : List Value) :
    Performs limit b.jobs vs (b.exec limit) fun _ => vs :=
  b.of_inductive (Statement.performs_inductive limit) vs

theorem Statement.performs_execAll (limit : Nat) (ss : List Statement) (vs : List Value) :
    Performs limit (ss.map .execute) vs (Statement.execAll limit ss) fun _ => vs :=
  Statement.all_of_inductive (Statement.performs_inductive limit) ss vs

end Statements

/-! ### Programs -/

/-- The end of an execution that is not given up, with a fault or without one. -/
def Machine.ending (m : Machine) : Option Fault → EStateM.Result Halt Machine Unit
  | none => .ok () m
  | some f => .error (.fault f) m

/-- The statements of a program come to the same end as its jobs. -/
theorem Program.leads (limit : Nat) (program : Program) (m : Machine) :
    Leads limit (.first program m) [] (fun _ => []) (Statement.execAll limit program m) := by
  have h := Statement.performs_execAll limit program [] [] m
  rwa [List.append_nil] at h

/-- A program ends if and only if there is a moment without jobs, which is the end then. -/
theorem Program.ends_iff {program : Program} {m m' : Machine} {fault : Option Fault} :
    (∃ limit, Statement.execAll limit program m = m'.ending fault) ↔
      ∃ n, (Moment.first program m).after n = ⟨[], [], m', fault⟩ := by
  constructor
  · rintro ⟨limit, h⟩
    have hl := leads limit program m
    rw [h] at hl
    cases fault with
    | none => cases hl with
      | ok n hn => exact ⟨n, hn⟩
    | some f => cases hl with
      | fault n hn => exact ⟨n, hn⟩
  · rintro ⟨n, hn⟩
    refine ⟨n, ?_⟩
    have hj : ((Moment.first program m).after n).jobs = [] := congrArg Moment.jobs hn
    -- With as many rounds allowed as there were jobs, no loop can have been given up.
    have hl := leads n program m
    generalize Statement.execAll n program m = r at hl
    cases hl with
    | exhausted h => exact absurd hj h
    | ok k h =>
      have he := Moment.after_eq_of_nil hj (congrArg Moment.jobs h)
      rw [hn, h] at he
      cases he
      rfl
    | fault k h =>
      have he := Moment.after_eq_of_nil hj (congrArg Moment.jobs h)
      rw [hn, h] at he
      cases he
      rfl

/-! ### Visits -/

/-- From the moment `c` on, the visited statement comes to be executed, on the machine of the
    visit. -/
def Moment.Passes (c : Moment) (v : Visit) : Prop :=
  ∃ n js vs, c.after n = ⟨.execute v.statement :: js, vs, v.before, none⟩

theorem Moment.Passes.of_after {c : Moment} {v : Visit} {n : Nat} (h : (c.after n).Passes v) :
    c.Passes v := by
  obtain ⟨k, js, vs, h⟩ := h
  exact ⟨n + k, js, vs, (c.after_add n k).trans h⟩

/-- All visits happen while the jobs are done, whatever comes after them. -/
def Covers (jobs : List Job) (vs : List Value) (visits : Machine → List Visit) : Prop :=
  ∀ js m, ∀ v ∈ visits m, Moment.Passes ⟨jobs ++ js, vs, m, none⟩ v

section Covers

variable {α : Type} {k : Nat} {job : Job} {jobs jobs' new : List Job} {vs vs' : List Value}
  {x : Exec α} {out : α → List Value} {visits : Machine → List Visit}
  {visits' : α → Machine → List Visit}

namespace Covers

protected theorem nil : Covers jobs vs fun _ => [] :=
  fun _ _ _ h => absurd h List.not_mem_nil

/-- What follows an action is visited when the jobs of the action are done. -/
theorem following (hp : Performs k jobs vs x out) (hf : ∀ a, Covers jobs' (out a) (visits' a)) :
    Covers (jobs ++ jobs') vs (x.following visits') := by
  intro js m v hv
  have hl := hp (jobs' ++ js) m
  rw [← List.append_assoc] at hl
  cases hr : x m with
  | ok a m' =>
    rw [Exec.following_of_ok hr] at hv
    rw [hr] at hl
    cases hl with
    | ok n hn => exact .of_after (hn ▸ hf a js m' v hv)
  | error halt m' =>
    rw [Exec.following_of_error hr] at hv
    exact absurd hv List.not_mem_nil

/-- What follows when an expression is computed. -/
theorem compute {e : Expr} {visits' : Value → Machine → List Visit}
    (h : ∀ v, Covers jobs (v :: vs) (visits' v)) :
    Covers (.compute e :: jobs) vs ((Exec.eval e).following visits') :=
  following (Exec.performs_eval (k := 0) e vs) h

protected theorem bind (hx : Covers jobs vs visits) (hp : Performs k jobs vs x out)
    (hf : ∀ a, Covers jobs' (out a) (visits' a)) :
    Covers (jobs ++ jobs') vs fun m => visits m ++ x.following visits' m := by
  intro js m v hv
  rcases List.mem_append.1 hv with hv | hv
  · have h := hx (jobs' ++ js) m v hv
    rwa [← List.append_assoc] at h
  · exact following hp hf js m v hv

/-- One job that only changes the machine and makes way for others. -/
theorem of_next {g : Machine → Machine}
    (hn : ∀ js m, Moment.next ⟨job :: js, vs, m, none⟩ = ⟨new ++ js, vs', g m, none⟩)
    (h : Covers new vs' visits) : Covers [job] vs fun m => visits (g m) := by
  intro js m v hv
  refine .of_after (n := 1) ?_
  rw [List.singleton_append, Moment.after, hn]
  exact h js (g m) v hv

theorem visited (s : Statement) (h : Covers s.jobs vs visits) :
    Covers [.execute s] vs fun m => ⟨s, m⟩ :: visits (m.emit (.executing s.pos)) := by
  intro js m v hv
  rcases List.mem_cons.1 hv with rfl | hv
  · exact ⟨0, js, vs, rfl⟩
  · exact of_next (g := fun m => m.emit (.executing s.pos)) (fun _ _ => rfl) h js m v hv

protected theorem framed (h : Covers jobs vs visits) :
    Covers (.enter :: (jobs ++ [.leave])) vs fun m => visits m.push := by
  intro js m v hv
  refine .of_after (n := 1) ?_
  have h := h (.leave :: js) m.push v hv
  rw [List.cons_append, List.append_assoc]
  exact h

end Covers

theorem Exec.following_map {β : Type} (x : Exec α) (g : α → β)
    (visits : β → Machine → List Visit) :
    Exec.following (do return g (← x)) visits = x.following fun a => visits (g a) := by
  funext m
  cases hr : x m with
  | ok a m' =>
    have hg : (do return g (← x) : Exec β) m = .ok (g a) m' := bind_apply_of_ok hr
    rw [following_of_ok hr, following_of_ok hg]
  | error halt m' => rw [following_of_error hr, following_of_error (bind_apply_of_error hr)]

theorem Exec.rounds_covers (condition : Expr) {step : Statement} {body : Block} {round : Exec Unit}
    (hr : ∀ vs, Covers (body.jobs ++ [.execute step]) vs visits)
    (hp : ∀ vs, Performs k (body.jobs ++ [.execute step]) vs round fun _ => vs) (n : Nat)
    (vs : List Value) : Covers [.ask condition step body] vs
      (Exec.roundsVisits (do return (← Exec.eval condition).truthy) round visits n) := by
  induction n generalizing vs with
  | zero => exact .nil
  | succ n ih =>
    rw [Exec.roundsVisits, Exec.following_map]
    refine .of_next (g := id) (fun _ _ => rfl) ?_
    refine .compute fun v => .of_next (g := id) (fun _ _ => rfl) ?_
    split
    · have hb := (hr vs).bind (hp vs) fun _ => ih vs
      rwa [List.append_assoc] at hb
    · exact .nil

/-- The visits of a statement happen while its jobs are done, if those of its parts do. -/
theorem Statement.covers_inductive (limit : Nat) : Statement.Inductive
    (fun s => ∀ vs, Covers [.execute s] vs (s.visits limit))
    (fun b => ∀ vs, Covers b.jobs vs (b.visits limit))
    (fun ss => ∀ vs, Covers (ss.map .execute) vs (Statement.visitsAll limit ss)) where
  declare type names initial pos _ := .visited (.declare type names initial pos) .nil
  print value pos _ := .visited (.print value pos) .nil
  read names pos _ := .visited (.read names pos) .nil
  block {body} ih vs := .visited (.block body) (ih vs)
  choose condition {whenTrue whenFalse} pos iht ihf vs := by
    refine .visited (.choose condition whenTrue whenFalse pos) ?_
    refine .compute fun v => .of_next (g := id) (fun _ _ => rfl) ?_
    split
    · exact iht vs
    · cases whenFalse with
      | none => exact .nil
      | some body => exact ihf body rfl vs
  loop {initial} condition {step body} pos ihi ihs ihb vs := by
    have hr vs := (ihb vs).bind (body.performs_exec limit vs) fun _ => ihs vs
    have hp := Block.performs_round (body.performs_exec limit) (step.performs_exec limit)
    have hi := (ihi vs).bind (initial.performs_exec limit vs) fun _ =>
      Exec.rounds_covers condition hr hp limit vs
    exact .visited (.loop initial condition step body pos) hi.framed
  compute expr pos _ := .visited (.compute expr pos) .nil
  body _ ih vs := (ih vs).framed
  nil _ := .nil
  cons {s _} ihs ihr vs := (ihs vs).bind (s.performs_exec limit vs) fun _ => ihr vs

end Covers

/-- Every statement that a program executes, within any limit, is executed at one of its
    moments. -/
theorem Program.passes_of_visits {limit : Nat} {program : Program} {m : Machine} {v : Visit}
    (h : v ∈ program.visits limit m) : (Moment.first program m).Passes v := by
  have hp := Statement.all_of_inductive (Statement.covers_inductive limit) program [] [] m v h
  rwa [List.append_nil] at hp

end Tudlo
