import Tudlo.Proofs.Grammar.Marks
import Tudlo.Proofs.Machine.Moments

/-!
# Properties of all values

The values of a running program come from few places: literals, the values that variables
start with, fields of input, and operators. A property that the values from these places have
(`Value.Closed`) is one of all values there are at any moment, those of the variables in all
frames included (`Moment.Forall`). What one job does is looked at once (`Job.keeps`), and all
moments follow.

One such property is not to be the null value. So no program that can be read ever computes
it, and none of its variables ever holds it, also not at a fault.

* `Program.forall_of_parse`: closed properties hold at all moments;
* `Program.never_null`: there is no null value.
-/

namespace Tudlo

/-- A property that all values have which are not written in the program: those that
    variables start with, those that are read, and those that operators make. -/
structure Value.Closed (P : Value → Prop) : Prop where
  zero (type : ScalarType) : P type.zero
  read {type : ScalarType} {cs : List Char} {v : Value} : type.read? cs = some v → P v
  unary {op : UnaryOp} {v w : Value} : P v → op.apply v = .ok w → P w
  binary {op : BinaryOp} {l r v : Value} : P l → P r → op.apply l r = .ok v → P v

variable {P : Value → Prop}

/-! ### Variables -/

/-- The property holds of the values of all variables of the frame. -/
def Frame.Forall (P : Value → Prop) (f : Frame) : Prop :=
  ∀ b ∈ f.bindings, P b.2.value

/-- The property holds of the values of all variables, in all frames. -/
def Environment.Forall (P : Value → Prop) (env : Environment) : Prop :=
  ∀ f ∈ env.frames, f.Forall P

namespace Frame

variable {f g : Frame} {name : String} {v : Variable} {value : Value}

theorem mem_of_find? (h : f.find? name = some v) : (name, v) ∈ f.bindings := by
  obtain ⟨bs⟩ := f
  rw [find?] at h
  dsimp only at h ⊢
  induction bs with
  | nil => cases h
  | cons b bs ih =>
    rw [List.lookup_cons] at h
    split at h
    · rename_i hb
      obtain rfl := Option.some.inj h
      obtain rfl := eq_of_beq hb
      exact List.mem_cons_self
    · exact List.mem_cons_of_mem _ (ih h)

theorem Forall.insert (h : f.Forall P) (hv : P v.value) : (f.insert name v).Forall P := by
  obtain ⟨bs⟩ := f
  show ∀ b ∈ replace name v bs, P b.2.value
  replace h : ∀ b ∈ bs, P b.2.value := h
  induction bs with
  | nil => exact List.forall_mem_singleton.2 hv
  | cons b bs ih =>
    obtain ⟨hb, hbs⟩ := List.forall_mem_cons.1 h
    rw [replace]
    split
    · exact List.forall_mem_cons.2 ⟨hv, hbs⟩
    · exact List.forall_mem_cons.2 ⟨hb, ih hbs⟩

theorem Forall.assign? (h : f.Forall P) (hv : P value) (ha : f.assign? name value = some g) :
    g.Forall P := by
  obtain ⟨v, -, rfl⟩ := Option.map_eq_some_iff.1 ha
  exact h.insert hv

end Frame

namespace Environment

variable {env env' : Environment} {name : String} {v : Variable} {value : Value}

theorem Forall.of_find? (h : env.Forall P) (hv : env.find? name = some v) : P v.value := by
  obtain ⟨f, hf, hv⟩ := List.exists_of_findSome?_eq_some hv
  exact h f hf _ (Frame.mem_of_find? hv)

theorem Forall.define (h : env.Forall P) (hv : P v.value) : (env.define name v).Forall P := by
  obtain ⟨hi, ho⟩ := List.forall_mem_cons.1 h
  exact List.forall_mem_cons.2 ⟨hi.insert hv, ho⟩

theorem forall_of_assignIn? {fs gs : List Frame} (h : ∀ f ∈ fs, f.Forall P) (hv : P value)
    (ha : assignIn? name value fs = some gs) : ∀ f ∈ gs, f.Forall P := by
  induction fs generalizing gs with
  | nil => cases ha
  | cons f fs ih =>
    obtain ⟨hf, hfs⟩ := List.forall_mem_cons.1 h
    rw [assignIn?] at ha
    split at ha
    · rename_i g hg
      obtain rfl := Option.some.inj ha
      exact List.forall_mem_cons.2 ⟨hf.assign? hv hg, hfs⟩
    · obtain ⟨hs, hhs, rfl⟩ := Option.map_eq_some_iff.1 ha
      exact List.forall_mem_cons.2 ⟨hf, ih hfs hhs⟩

theorem Forall.assign? (h : env.Forall P) (hv : P value)
    (ha : env.assign? name value = some env') : env'.Forall P := by
  obtain ⟨hi, ho⟩ := List.forall_mem_cons.1 h
  rw [Environment.assign?] at ha
  split at ha
  · rename_i f hf
    obtain rfl := Option.some.inj ha
    exact List.forall_mem_cons.2 ⟨hi.assign? hv hf, ho⟩
  · obtain ⟨fs, hfs, rfl⟩ := Option.map_eq_some_iff.1 ha
    exact List.forall_mem_cons.2 ⟨hi, forall_of_assignIn? ho hv hfs⟩

theorem Forall.push (h : env.Forall P) : env.push.Forall P :=
  List.forall_mem_cons.2 ⟨fun _ hb => absurd hb List.not_mem_nil, h⟩

theorem Forall.pop (h : env.Forall P) : env.pop.Forall P := by
  obtain ⟨inner, outer⟩ := env
  cases outer with
  | nil => exact h
  | cons f fs => exact (List.forall_mem_cons.1 h).2

end Environment

/-! ### Actions -/

section Preserves

variable {ε σ α β : Type} {I : σ → Prop} {Q : α → Prop} {R : β → Prop}

/-- `I` holds of the state at the end, and `Q` of the result if there is one. -/
inductive EndsIn (I : σ → Prop) (Q : α → Prop) : EStateM.Result ε σ α → Prop
  | ok {a : α} {s : σ} (ha : Q a) (hs : I s) : EndsIn I Q (.ok a s)
  | error {e : ε} {s : σ} (hs : I s) : EndsIn I Q (.error e s)

/-- The action keeps `I`, whatever its end is, and `Q` holds of what it gives. -/
def Preserves (I : σ → Prop) (x : EStateM ε σ α) (Q : α → Prop) : Prop :=
  ∀ s, I s → EndsIn I Q (x s)

namespace Preserves

protected theorem pure {a : α} (h : Q a) : Preserves I (pure a : EStateM ε σ α) Q :=
  fun _ hs => .ok h hs

protected theorem throw (e : ε) : Preserves I (throw e : EStateM ε σ α) Q :=
  fun _ hs => .error hs

protected theorem modify {f : σ → σ} (h : ∀ s, I s → I (f s)) :
    Preserves I (modify f : EStateM ε σ Unit) fun _ => True :=
  fun s hs => .ok trivial (h s hs)

protected theorem bind {x : EStateM ε σ α} {f : α → EStateM ε σ β} (hx : Preserves I x Q)
    (hf : ∀ a, Q a → Preserves I (f a) R) : Preserves I (x >>= f) R := by
  intro s hs
  have he := hx s hs
  generalize hr : x s = r at he
  cases he with
  | @ok a s' ha hs' =>
    rw [bind_apply_of_ok hr]
    exact hf a ha s' hs'
  | error hs' =>
    rw [bind_apply_of_error hr]
    exact .error hs'

end Preserves

end Preserves

section Variables

variable {name : String} {pos : Position}

theorem Environment.resolve_preserves :
    Preserves (Environment.Forall P) (resolve name pos) fun v => P v.value := by
  intro env h
  cases hv : env.find? name with
  | some v =>
    rw [resolve_of_find? hv]
    exact .ok (h.of_find? hv) h
  | none =>
    rw [resolve_of_none hv]
    exact .error h

theorem Environment.write_preserves {value : Value} (hv : P value) :
    Preserves (Environment.Forall P) (write name value pos) fun _ => True := by
  intro env h
  cases ha : env.assign? name value with
  | some env' =>
    rw [write_of_assign? ha]
    exact .ok trivial (h.assign? hv ha)
  | none =>
    rw [write_of_none ha]
    exact .error h

theorem blame_preserves {I : Environment → Prop} {α : Type} {Q : α → Prop}
    {r : Except FaultCause α} (h : ∀ a, r = .ok a → Q a) : Preserves I (blame pos r) Q := by
  cases r with
  | ok a => exact .pure (h a rfl)
  | error cause => exact .throw _

namespace Exec

theorem readFields_preserves (hP : Value.Closed P) (fields : List (String × List Char)) :
    Preserves (Environment.Forall P) (readFields pos fields) fun values => ∀ p ∈ values, P p.2 := by
  induction fields with
  | nil => exact .pure fun _ h => absurd h List.not_mem_nil
  | cons p fields ih =>
    refine .bind Environment.resolve_preserves fun v _ => ?_
    split
    · rename_i value hr
      exact .bind ih fun values hs => .pure (List.forall_mem_cons.2 ⟨hP.read hr, hs⟩)
    · exact .throw _

theorem onVariables_preserves {I : Environment → Prop} {α : Type} {Q : α → Prop}
    {x : EStateM Fault Environment α} (h : Preserves I x Q) :
    Preserves (fun m : Machine => I m.env) (onVariables x) Q := by
  intro m hm
  have he := h m.env hm
  generalize hr : x m.env = r at he
  cases he with
  | ok ha hs =>
    rw [onVariables_of_ok hr]
    exact .ok ha hs
  | error hs =>
    rw [onVariables_of_error hr]
    exact .error hs

theorem nextLine_preserves {I : Environment → Prop} :
    Preserves (fun m : Machine => I m.env) (nextLine pos) fun _ => True := by
  intro m hm
  obtain ⟨env, output, input, trace⟩ := m
  cases input with
  | nil => exact .error hm
  | cons line rest => exact .ok trivial hm

theorem readLine_preserves (hP : Value.Closed P) (names : List String) :
    Preserves (fun m : Machine => m.env.Forall P) (readLine names pos)
      fun values => ∀ p ∈ values, P p.2 := by
  refine .bind nextLine_preserves fun line _ => ?_
  dsimp only
  split
  · exact onVariables_preserves (readFields_preserves hP _)
  · exact .throw _

end Exec

end Variables

/-! ### Jobs -/

/-- If the node is a literal, the property holds of its value. -/
def Node.Forall (P : Value → Prop) : Node → Prop
  | .expr (.literal value _) => P value
  | _ => True

/-- The property holds of all values that the job was given or that it will take from the
    text of the program. -/
def Job.Forall (P : Value → Prop) : Job → Prop
  | .compute e => ∀ n ∈ e.nodes, n.Forall P
  | .define _ _ value => P value
  | .store _ value _ => P value
  | .execute s => ∀ n ∈ s.nodes, n.Forall P
  | .choose whenTrue whenFalse => ∀ n ∈ whenTrue.nodes ++ Block.nodesAny whenFalse, n.Forall P
  | .ask condition step body => ∀ n ∈ condition.nodes ++ (step.nodes ++ body.nodes), n.Forall P
  | .again condition step body => ∀ n ∈ condition.nodes ++ (step.nodes ++ body.nodes), n.Forall P
  | _ => True

theorem Job.forall_pair {a b : Job} (ha : a.Forall P) (hb : b.Forall P) :
    ∀ job ∈ [a, b], job.Forall P :=
  List.forall_mem_cons.2 ⟨ha, List.forall_mem_singleton.2 hb⟩

theorem Statement.execute_forall {ss : List Statement}
    (h : ∀ n ∈ Statement.nodesAll ss, n.Forall P) : ∀ job ∈ ss.map Job.execute, job.Forall P := by
  induction ss with
  | nil => exact fun _ h => absurd h List.not_mem_nil
  | cons s ss ih =>
    obtain ⟨hs, hss⟩ := List.forall_mem_append.1 h
    exact List.forall_mem_cons.2 ⟨hs, ih hss⟩

theorem Block.jobs_forall {b : Block} (h : ∀ n ∈ b.nodes, n.Forall P) :
    ∀ job ∈ b.jobs, job.Forall P := by
  obtain ⟨statements, pos⟩ := b
  refine List.forall_mem_cons.2 ⟨trivial, List.forall_mem_append.2 ⟨?_, ?_⟩⟩
  · exact Statement.execute_forall h
  · exact List.forall_mem_singleton.2 trivial

theorem Block.jobsAny_forall {b : Option Block} (h : ∀ n ∈ Block.nodesAny b, n.Forall P) :
    ∀ job ∈ Block.jobsAny b, job.Forall P := by
  cases b with
  | none => exact fun _ h => absurd h List.not_mem_nil
  | some body => exact Block.jobs_forall h

theorem Statement.jobs_forall (hP : Value.Closed P) {s : Statement}
    (h : ∀ n ∈ s.nodes, n.Forall P) : ∀ job ∈ s.jobs, job.Forall P := by
  cases s with
  | declare type names initial pos =>
    cases initial with
    | none => exact List.forall_mem_map.2 fun _ _ => hP.zero type
    | some e => exact Job.forall_pair h trivial
  | print value pos => exact Job.forall_pair h trivial
  | read names pos => exact List.forall_mem_singleton.2 trivial
  | block body => exact Block.jobs_forall h
  | choose condition whenTrue whenFalse pos =>
    obtain ⟨hc, hb⟩ := List.forall_mem_append.1 h
    exact Job.forall_pair hc hb
  | loop initial condition step body pos =>
    obtain ⟨hi, hl⟩ := List.forall_mem_append.1 h
    refine List.forall_mem_cons.2 ⟨trivial, List.forall_mem_cons.2 ⟨hi, ?_⟩⟩
    exact Job.forall_pair hl trivial
  | compute expr pos => exact Job.forall_pair h trivial

/-- The property holds of all values at the moment. -/
structure Moment.Forall (P : Value → Prop) (c : Moment) : Prop where
  jobs : ∀ job ∈ c.jobs, job.Forall P
  values : ∀ v ∈ c.values, P v
  env : c.machine.env.Forall P

/-! ### What a job does -/

/-- The job keeps the property: it holds of the variables after the job, of the values then,
    and of the new jobs. -/
def Job.Keeps (P : Value → Prop) (job : Job) (vs : List Value) : Prop :=
  Preserves (fun m : Machine => m.env.Forall P) (job.act vs)
    fun p => (∀ job ∈ p.1, job.Forall P) ∧ ∀ v ∈ p.2, P v

section Jobs

variable {vs : List Value} {pos : Position}

theorem Job.forall_nil : ∀ job ∈ ([] : List Job), job.Forall P :=
  fun _ h => absurd h List.not_mem_nil

theorem Job.keeps_compute {e : Expr} (he : ∀ n ∈ e.nodes, n.Forall P) (hv : ∀ v ∈ vs, P v) :
    (Job.compute e).Keeps P vs := by
  cases e with
  | literal value pos =>
    exact .pure ⟨forall_nil, List.forall_mem_cons.2 ⟨he _ List.mem_cons_self, hv⟩⟩
  | var name pos =>
    refine .bind (Exec.onVariables_preserves Environment.resolve_preserves) fun v hp => ?_
    exact .pure ⟨forall_nil, List.forall_mem_cons.2 ⟨hp, hv⟩⟩
  | assign name e pos =>
    exact .pure ⟨forall_pair (List.forall_mem_cons.1 he).2 trivial, hv⟩
  | unary op e pos =>
    exact .pure ⟨forall_pair (List.forall_mem_cons.1 he).2 trivial, hv⟩
  | binary op l r pos =>
    obtain ⟨hl, hr⟩ := List.forall_mem_append.1 (List.forall_mem_cons.1 he).2
    exact .pure ⟨List.forall_mem_cons.2 ⟨hl, forall_pair hr trivial⟩, hv⟩

theorem Job.keeps_assign {name : String} {v : Value} (hv : ∀ w ∈ v :: vs, P w) :
    (Job.assign name pos).Keeps P (v :: vs) := by
  refine .bind (Exec.onVariables_preserves (Environment.write_preserves ?_)) fun _ _ => ?_
  · exact hv v List.mem_cons_self
  · exact .pure ⟨forall_nil, hv⟩

theorem Job.keeps_unary (hP : Value.Closed P) {op : UnaryOp} {v : Value}
    (hv : ∀ w ∈ v :: vs, P w) : (Job.unary op pos).Keeps P (v :: vs) := by
  obtain ⟨hp, hv⟩ := List.forall_mem_cons.1 hv
  refine .bind (Exec.onVariables_preserves (blame_preserves fun w => hP.unary hp)) ?_
  exact fun w hw => .pure ⟨forall_nil, List.forall_mem_cons.2 ⟨hw, hv⟩⟩

theorem Job.keeps_binary (hP : Value.Closed P) {op : BinaryOp} {l r : Value}
    (hv : ∀ w ∈ r :: l :: vs, P w) : (Job.binary op pos).Keeps P (r :: l :: vs) := by
  obtain ⟨hr, hv⟩ := List.forall_mem_cons.1 hv
  obtain ⟨hl, hv⟩ := List.forall_mem_cons.1 hv
  refine .bind (Exec.onVariables_preserves (blame_preserves fun w => hP.binary hl hr)) ?_
  exact fun w hw => .pure ⟨forall_nil, List.forall_mem_cons.2 ⟨hw, hv⟩⟩

theorem Job.keeps_receive (hP : Value.Closed P) {names : List String} (hv : ∀ v ∈ vs, P v) :
    (Job.receive names pos).Keeps P vs := by
  refine .bind (Exec.readLine_preserves hP names) fun values hs => .pure ⟨?_, hv⟩
  exact List.forall_mem_append.2 ⟨List.forall_mem_map.2 hs, List.forall_mem_singleton.2 trivial⟩

theorem Job.keeps_choose {whenTrue : Block} {whenFalse : Option Block} {v : Value}
    (hj : (Job.choose whenTrue whenFalse).Forall P) (hv : ∀ w ∈ v :: vs, P w) :
    (Job.choose whenTrue whenFalse).Keeps P (v :: vs) := by
  obtain ⟨ht, hf⟩ := List.forall_mem_append.1 hj
  refine .pure ⟨?_, (List.forall_mem_cons.1 hv).2⟩
  dsimp only
  split
  · exact Block.jobs_forall ht
  · exact Block.jobsAny_forall hf

theorem Job.keeps_again {condition : Expr} {step : Statement} {body : Block} {v : Value}
    (hj : (Job.again condition step body).Forall P) (hv : ∀ w ∈ v :: vs, P w) :
    (Job.again condition step body).Keeps P (v :: vs) := by
  obtain ⟨hs, hb⟩ := List.forall_mem_append.1 (List.forall_mem_append.1 hj).2
  refine .pure ⟨?_, (List.forall_mem_cons.1 hv).2⟩
  dsimp only
  split
  · exact List.forall_mem_append.2 ⟨Block.jobs_forall hb, forall_pair hs hj⟩
  · exact forall_nil

/-- Every job keeps the property. Without the values it needs, it does nothing. -/
theorem Job.keeps (hP : Value.Closed P) {job : Job} (hj : job.Forall P) (hv : ∀ v ∈ vs, P v) :
    job.Keeps P vs := by
  have hn : ∀ job ∈ ([] : List Job), job.Forall P := forall_nil
  cases job with
  | compute e => exact keeps_compute hj hv
  | assign name pos =>
    cases vs with
    | nil => exact .pure ⟨hn, hv⟩
    | cons v vs => exact keeps_assign hv
  | unary op pos =>
    cases vs with
    | nil => exact .pure ⟨hn, hv⟩
    | cons v vs => exact keeps_unary hP hv
  | binary op pos =>
    rcases vs with _ | ⟨r, _ | ⟨l, vs⟩⟩
    · exact .pure ⟨hn, hv⟩
    · exact .pure ⟨hn, hv⟩
    · exact keeps_binary hP hv
  | drop =>
    cases vs with
    | nil => exact .pure ⟨hn, hv⟩
    | cons v vs => exact .pure ⟨hn, (List.forall_mem_cons.1 hv).2⟩
  | print =>
    cases vs with
    | nil => exact .pure ⟨hn, hv⟩
    | cons v vs =>
      exact .bind (.modify fun _ h => h) fun _ _ => .pure ⟨hn, (List.forall_mem_cons.1 hv).2⟩
  | declare type names =>
    cases vs with
    | nil => exact .pure ⟨hn, hv⟩
    | cons v vs =>
      obtain ⟨hp, hv⟩ := List.forall_mem_cons.1 hv
      exact .pure ⟨List.forall_mem_map.2 fun _ _ => hp, hv⟩
  | define type name value =>
    exact .bind (.modify fun _ h => h.define hj) fun _ _ => .pure ⟨hn, hv⟩
  | receive names pos => exact keeps_receive hP hv
  | store name value pos =>
    refine .bind (Exec.onVariables_preserves (Environment.write_preserves hj)) fun _ _ => ?_
    exact .pure ⟨hn, hv⟩
  | received count => exact .bind (.modify fun _ h => h) fun _ _ => .pure ⟨hn, hv⟩
  | execute s =>
    exact .bind (.modify fun _ h => h) fun _ _ => .pure ⟨Statement.jobs_forall hP hj, hv⟩
  | enter => exact .bind (.modify fun _ h => h.push) fun _ _ => .pure ⟨hn, hv⟩
  | leave => exact .bind (.modify fun _ h => h.pop) fun _ _ => .pure ⟨hn, hv⟩
  | choose whenTrue whenFalse =>
    cases vs with
    | nil => exact .pure ⟨hn, hv⟩
    | cons v vs => exact keeps_choose hj hv
  | ask condition step body =>
    exact .pure ⟨forall_pair (List.forall_mem_append.1 hj).1 hj, hv⟩
  | again condition step body =>
    cases vs with
    | nil => exact .pure ⟨hn, hv⟩
    | cons v vs => exact keeps_again hj hv

end Jobs

theorem Job.giveUp_preserves (job : Job) {m : Machine} (h : m.env.Forall P) :
    (job.giveUp m).env.Forall P := by
  cases job with
  | leave => exact h.pop
  | _ => exact h

namespace Moment

variable {c : Moment}

/-- The next moment. -/
theorem Forall.next (hP : Value.Closed P) (h : c.Forall P) : c.next.Forall P := by
  obtain ⟨jobs, values, machine, fault⟩ := c
  obtain ⟨hj, hv, he⟩ := h
  cases jobs with
  | nil => exact ⟨hj, hv, he⟩
  | cons job jobs =>
    obtain ⟨hjob, hjobs⟩ := List.forall_mem_cons.1 hj
    cases fault with
    | some f => exact ⟨hjobs, hv, job.giveUp_preserves he⟩
    | none =>
      have ha := Job.keeps hP hjob hv machine he
      generalize hr : job.act values machine = r at ha
      cases ha with
      | @ok p m hp hm =>
        rw [next_of_ok hr]
        exact ⟨List.forall_mem_append.2 ⟨hp.1, hjobs⟩, hp.2, hm⟩
      | @error halt m hm =>
        cases halt with
        | fault f =>
          rw [next_of_fault hr]
          exact ⟨hjobs, fun _ h => absurd h List.not_mem_nil, hm⟩
        | exhausted =>
          rw [Moment.next]
          simp only [hr]
          exact ⟨hj, hv, he⟩

/-- All moments after that. -/
theorem Forall.after (hP : Value.Closed P) (h : c.Forall P) (n : Nat) : (c.after n).Forall P := by
  induction n generalizing c with
  | zero => exact h
  | succ n ih => exact ih (h.next hP)

/-- The value of an expression that is about to be computed. -/
theorem Forall.eval (hP : Value.Closed P) (h : c.Forall P) {e : Expr} {js : List Job}
    (hj : c.jobs = .compute e :: js) (hf : c.fault = none) {v : Value} {m : Machine}
    (he : Exec.eval e c.machine = .ok v m) : P v := by
  obtain ⟨jobs, values, machine, fault⟩ := c
  obtain rfl : jobs = .compute e :: js := hj
  obtain rfl : fault = none := hf
  -- The value is among those at the moment when the expression is computed.
  have hl := @Exec.performs_eval 0 e values js machine
  rw [he] at hl
  cases hl with
  | ok n hn =>
    have hv := (h.after hP n).values
    rw [List.singleton_append] at hn
    rw [hn] at hv
    exact hv v List.mem_cons_self

end Moment

/-! ### Literals -/

section Literals

variable {ts : List Token}

/-- The literals of an expression that is derived are those of tokens. -/
theorem Rule.Derives.nodes_forall (hl : ∀ l : Literal, P l.value) {r : Rule} {e : Expr}
    (h : r.Derives ts e) : ∀ n ∈ e.nodes, n.Forall P := by
  induction h with
  | literal _ => exact List.forall_mem_singleton.2 (hl _)
  | name _ => exact List.forall_mem_singleton.2 trivial
  | parentheses _ _ _ ih => exact ih
  | unary _ _ ih => exact List.forall_mem_cons.2 ⟨trivial, ih⟩
  | operation _ _ _ _ ihl ihr =>
    exact List.forall_mem_cons.2 ⟨trivial, List.forall_mem_append.2 ⟨ihl, ihr⟩⟩
  | assign _ _ _ _ ih => exact List.forall_mem_cons.2 ⟨trivial, ih⟩
  | next _ _ _ ihl ihr =>
    exact List.forall_mem_cons.2 ⟨trivial, List.forall_mem_append.2 ⟨ihl, ihr⟩⟩
  | last _ _ _ ihl ihr =>
    exact List.forall_mem_cons.2 ⟨trivial, List.forall_mem_append.2 ⟨ihl, ihr⟩⟩
  | primary _ ih | operand _ ih | value _ ih | first _ ih | single _ ih => exact ih

variable (hl : ∀ l : Literal, P l.value)

include hl

theorem TypedDerives.nodes_forall {s : Statement} (h : TypedDerives ts s) :
    ∀ n ∈ s.nodes, n.Forall P := by
  cases h with
  | bare => exact fun _ h => absurd h List.not_mem_nil
  | initialised _ _ _ he => exact he.nodes_forall hl

theorem ClauseDerives.nodes_forall {s : Statement} (h : ClauseDerives ts s) :
    ∀ n ∈ s.nodes, n.Forall P := by
  cases h with
  | declared _ hs => exact hs.nodes_forall hl
  | computed he => exact he.nodes_forall hl

/-- The nodes of a loop are those of its clauses and those of its block. -/
theorem ClausesDerive.nodes_forall {initial step : Statement} {condition : Expr} {body : Block}
    (h : ClausesDerive ts initial condition step) (hb : ∀ n ∈ body.nodes, n.Forall P) :
    ∀ n ∈ initial.nodes ++ (condition.nodes ++ (step.nodes ++ body.nodes)), n.Forall P := by
  cases h with
  | mk hi _ hc _ hs =>
    refine List.forall_mem_append.2 ⟨hi.nodes_forall hl, ?_⟩
    refine List.forall_mem_append.2 ⟨hc.nodes_forall hl, ?_⟩
    exact List.forall_mem_append.2 ⟨hs.nodes_forall hl, hb⟩

theorem Phrase.Derives.nodes_forall {p : Phrase} (h : p.Derives ts) :
    ∀ n ∈ p.nodes, n.Forall P := by
  have hn : ∀ n ∈ ([] : List Node), n.Forall P := fun _ h => absurd h List.not_mem_nil
  induction h with
  | announced _ hs => exact hs.nodes_forall hl
  | print _ _ he => exact he.nodes_forall hl
  | read _ _ _ => exact List.forall_mem_singleton.2 trivial
  | typed hs => exact hs.nodes_forall hl
  | loop _ hcs _ ih => exact hcs.nodes_forall hl ih
  | loopInParentheses _ _ hcs _ _ ih => exact hcs.nodes_forall hl ih
  | compute he => exact he.nodes_forall hl
  | only he _ ih =>
    exact List.forall_mem_append.2 ⟨he.nodes_forall hl, List.forall_mem_append.2 ⟨ih, hn⟩⟩
  | otherwise he _ _ _ ih ih' =>
    exact List.forall_mem_append.2 ⟨he.nodes_forall hl, List.forall_mem_append.2 ⟨ih, ih'⟩⟩
  | again he _ _ _ ih ih' =>
    refine List.forall_mem_append.2 ⟨he.nodes_forall hl, List.forall_mem_append.2 ⟨ih, ?_⟩⟩
    exact List.forall_mem_append.2 ⟨ih', hn⟩
  | done => exact hn
  | more _ _ ih ih' => exact List.forall_mem_append.2 ⟨ih, ih'⟩
  | plain _ ih | choose _ _ ih | nested _ ih | braces _ _ _ ih | marked _ _ _ _ ih => exact ih

theorem Statement.nodesAll_forall {ss : List Statement} {parts : List (List Token)}
    (h : List.Forall₂ (fun s part => Phrase.Derives (.declaration s) part) ss parts) :
    ∀ n ∈ Statement.nodesAll ss, n.Forall P := by
  induction h with
  | nil => exact fun _ h => absurd h List.not_mem_nil
  | cons hd _ ih => exact List.forall_mem_append.2 ⟨hd.nodes_forall hl, ih⟩

/-- A property that values have wherever they come from holds at all moments of a program
    that was read. -/
theorem Program.forall_of_parse (hP : Value.Closed P) {tokens : List Token} {program : Program}
    (h : Program.parse tokens = .ok program) (input : List String) (n : Nat) :
    ((Moment.first program { input }).after n).Forall P := by
  obtain ⟨_, _, _, -, hparts⟩ := Program.parts_of_parse h
  refine Moment.Forall.after hP ⟨?_, ?_, ?_⟩ n
  · exact Statement.execute_forall (Statement.nodesAll_forall hl hparts)
  · exact fun _ h => absurd h List.not_mem_nil
  · exact List.forall_mem_singleton.2 fun _ h => absurd h List.not_mem_nil

end Literals

/-! ### The null value -/

section Null

/-- The result is not the null value, if it is a value at all. -/
def NeverNull (r : Except FaultCause Value) : Prop :=
  ∀ v, r = .ok v → v ≠ .null

theorem neverNull_ok {v : Value} (h : v ≠ .null) : NeverNull (.ok v) := by
  intro w hw
  obtain rfl := Except.ok.inj hw
  exact h

theorem neverNull_error (cause : FaultCause) : NeverNull (.error cause) := by
  intro v hv
  cases hv

theorem neverNull_bind {α : Type} {x : Except FaultCause α} {f : α → Except FaultCause Value}
    (h : ∀ a, NeverNull (f a)) : NeverNull (x >>= f) := by
  cases x with
  | ok a => exact h a
  | error cause => exact neverNull_error cause

theorem neverNull_ite {p : Prop} [Decidable p] {x y : Except FaultCause Value} (hx : NeverNull x)
    (hy : NeverNull y) : NeverNull (if p then x else y) := by
  split
  · exact hx
  · exact hy

theorem neverNull_integerResult (n : Option Int64) : NeverNull (integerResult n) := by
  cases n with
  | some n => exact neverNull_ok (by simp)
  | none => exact neverNull_error _

namespace BinaryOp

theorem neverNull_onIntegers (op : BinaryOp) (a b : Int64) : NeverNull (op.onIntegers a b) := by
  cases op with
  | add | sub | mul => exact neverNull_integerResult _
  | div | rem => exact neverNull_ite (neverNull_error _) (neverNull_integerResult _)
  | _ => exact neverNull_error _

theorem neverNull_onDecimals (op : BinaryOp) (x y : Binary64) : NeverNull (op.onDecimals x y) := by
  cases op with
  | add | sub | mul => exact neverNull_ok (by simp)
  | div | rem => exact neverNull_ite (neverNull_error _) (neverNull_ok (by simp))
  | _ => exact neverNull_error _

theorem neverNull_arithmetic (op : BinaryOp) (l r : Value) : NeverNull (op.arithmetic l r) := by
  unfold arithmetic
  split
  · exact op.neverNull_onIntegers _ _
  · refine neverNull_ite (neverNull_bind fun x => neverNull_bind fun y => ?_) (neverNull_error _)
    exact op.neverNull_onDecimals x y

theorem neverNull_comparison (op : BinaryOp) (l r : Value) : NeverNull (op.comparison l r) := by
  cases op with
  | equal | notEqual => exact neverNull_ok (by simp)
  | less | greater | lessEqual | greaterEqual =>
    exact neverNull_bind fun _ => neverNull_ok (by simp)
  | _ => exact neverNull_error _

theorem neverNull_logic (op : BinaryOp) (l r : Value) : NeverNull (op.logic l r) := by
  cases op with
  | and | or | join => exact neverNull_ok (by simp)
  | _ => exact neverNull_error _

theorem neverNull_apply (op : BinaryOp) (l r : Value) : NeverNull (op.apply l r) := by
  unfold apply
  split
  · exact op.neverNull_arithmetic l r
  · exact op.neverNull_comparison l r
  · exact op.neverNull_logic l r

end BinaryOp

theorem UnaryOp.neverNull_apply (op : UnaryOp) (v : Value) : NeverNull (op.apply v) := by
  cases op with
  | negate =>
    cases v with
    | integer n => exact neverNull_integerResult _
    | decimal d => exact neverNull_ok (by simp)
    | _ => exact neverNull_error _
  | plus =>
    cases v with
    | integer n => exact neverNull_ok (by simp)
    | decimal d => exact neverNull_ok (by simp)
    | _ => exact neverNull_error _
  | not => exact neverNull_ok (by simp)

theorem Literal.value_ne_null (l : Literal) : l.value ≠ .null := by
  cases l <;> simp [Literal.value]

theorem Value.closed_ne_null : Value.Closed (· ≠ .null) where
  zero type := by cases type <;> simp [ScalarType.zero]
  read {type cs v} h := by
    rintro rfl
    have hk := ScalarType.kind_of_read? h
    cases type <;> cases hk
  unary _ h := UnaryOp.neverNull_apply _ _ _ h
  binary _ _ h := BinaryOp.neverNull_apply _ _ _ _ h

end Null

/-- No variable holds the null value, in any frame. -/
def Environment.NullFree (env : Environment) : Prop :=
  ∀ f ∈ env.frames, ∀ b ∈ f.bindings, b.2.value ≠ .null

namespace Program

/-- There is no null value in a program that was read, whatever the input is. At no moment
    does a variable hold it, nor is it among the values that were computed, nor is it what an
    expression comes to that is computed next. In particular no statement finds it in a
    variable, and neither does one who looks at the machine in the end, with a fault or
    without. -/
theorem never_null {tokens : List Token} {program : Program}
    (h : Program.parse tokens = .ok program) (input : List String) :
    (∀ n c, (Moment.first program { input }).after n = c →
      c.machine.env.NullFree ∧ (∀ v ∈ c.values, v ≠ .null) ∧
      ∀ e js v m, c.jobs = .compute e :: js → c.fault = none →
        Exec.eval e c.machine = .ok v m → v ≠ .null) ∧
    (∀ limit, ∀ v ∈ program.visits limit { input }, v.before.env.NullFree) ∧
    (∀ limit m, program.exec limit { input } = .ok () m → m.env.NullFree) ∧
    ∀ limit f m, program.exec limit { input } = .error (.fault f) m → m.env.NullFree := by
  have hm := forall_of_parse Literal.value_ne_null Value.closed_ne_null h input
  have he : ∀ (limit : Nat) (m : Machine) (fault : Option Fault),
      Statement.execAll limit program { input } = m.ending fault → m.env.NullFree := by
    intro limit m fault hx
    obtain ⟨n, hn⟩ := ends_iff.1 ⟨limit, hx⟩
    have hc := hm n
    rw [hn] at hc
    exact hc.env
  refine ⟨?_, fun limit v hv => ?_, fun limit m hx => ?_, fun limit f m hx => ?_⟩
  · rintro n c rfl
    exact ⟨(hm n).env, (hm n).values, fun e js v m hj hf =>
      (hm n).eval Value.closed_ne_null hj hf⟩
  · obtain ⟨n, js, vs, hn⟩ := passes_of_visits hv
    have hc := hm n
    rw [hn] at hc
    exact hc.env
  · obtain ⟨m₁, h₁, rfl⟩ := exec_eq_ok hx
    exact he limit m₁ none h₁
  · obtain ⟨m₁, h₁, rfl⟩ := exec_eq_fault hx
    exact he limit m₁ (some f) h₁

/-- The tokens of a program that divides by what it reads. -/
def sevenOverTokens : List Token := inColumns
  [.keyword .sugod, .keyword .mugna, .keyword (.scalar .integer), .name "x",
   .keyword .dawat, .symbol .colon, .name "x",
   .keyword .ipakita, .symbol .colon, .literal (.integer 7), .symbol .slash, .name "x",
   .keyword .katapusan, .ending]

/-- The program that these tokens are. -/
def sevenOver : Program :=
  [.declare .integer ["x"] none ⟨1, 3⟩,
   .read ["x"] ⟨1, 5⟩,
   .print (.binary .div (.literal (.integer 7) ⟨1, 10⟩) (.var "x" ⟨1, 12⟩) ⟨1, 11⟩) ⟨1, 8⟩]

/-- A program that reads a zero and stops with a fault. -/
theorem never_null_sevenOver :
    Program.parse sevenOverTokens = .ok sevenOver ∧
    ∃ m, sevenOver.exec 0 { input := ["0"] } = .error (.fault ⟨.divisionByZero, ⟨1, 11⟩⟩) m ∧
      m.env = ⟨⟨[("x", ⟨.integer, .integer 0⟩)]⟩, []⟩ ∧ m.env.NullFree := by
  have hp : Program.parse sevenOverTokens = .ok sevenOver := rfl
  have hx : sevenOver.exec 0 { input := ["0"] } =
      .error (.fault ⟨.divisionByZero, ⟨1, 11⟩⟩) _ := rfl
  exact ⟨hp, _, hx, rfl, (never_null hp ["0"]).2.2.2 _ _ _ hx⟩

end Program

end Tudlo
