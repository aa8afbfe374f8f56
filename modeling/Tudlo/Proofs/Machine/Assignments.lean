import Tudlo.Proofs.Environment.Slots
import Tudlo.Proofs.Machine.Actions

/-!
# The assignments of an expression

An expression is computed *part* by part (`Expr.parts`): the operands from left to right,
each with all of its own parts, and then the expression itself. No operator leaves out one
of its operands. Only the parts that are assignments change variables, so the computation
writes once for every assignment of the expression, in the order of the parts.

What is written is the value of the right side, and the right side is computed right before
the write. A relation between environments says that writes were done in such a way
(`Performed`); what they do to the variables together is known from `Environment.Entered`.

A computation that fails gets as far as one of the parts (`Expr.StopsAt`). All parts before
it were computed, with all that they assign, and the fault is its own.

* `Expr.eval_performs`: what the computation of an expression does to the variables,
  whether it succeeds or not.
-/

namespace Tudlo

namespace Expr

/-! ### Parts -/

/-- What is computed before the expression itself, from left to right. -/
def operands : Expr → List Expr
  | .literal _ _ => []
  | .var _ _ => []
  | .assign _ value _ => [value]
  | .unary _ operand _ => [operand]
  | .binary _ left right _ => [left, right]

/-- The expression with all the expressions in it, each after its operands. -/
def parts : Expr → List Expr
  | .literal value pos => [.literal value pos]
  | .var name pos => [.var name pos]
  | .assign name value pos => value.parts ++ [.assign name value pos]
  | .unary op operand pos => operand.parts ++ [.unary op operand pos]
  | .binary op left right pos => left.parts ++ right.parts ++ [.binary op left right pos]

/-- What holds of an expression if it holds of the operands, holds of all expressions. -/
theorem of_operands {P : Expr → Prop} (h : ∀ e : Expr, (∀ o ∈ e.operands, P o) → P e) (e : Expr) :
    P e := by
  induction e with
  | literal value pos => exact h _ (by simp [operands])
  | var name pos => exact h _ (by simp [operands])
  | assign name value pos ih => exact h _ (by simpa [operands] using ih)
  | unary op operand pos ih => exact h _ (by simpa [operands] using ih)
  | binary op left right pos ihl ihr => exact h _ (by simpa [operands] using ⟨ihl, ihr⟩)

theorem parts_eq (e : Expr) : e.parts = e.operands.flatMap parts ++ [e] := by
  cases e <;> simp [parts, operands]

end Expr

/-! ### Assignments -/

/-- An assignment in an expression. -/
structure Assignment where
  /-- The name that is assigned to. -/
  name : String
  /-- The right side. -/
  source : Expr
  /-- The position that the assignment is known by. -/
  pos : Position

namespace Expr

/-- The assignment that the expression itself is. -/
def assignment? : Expr → Option Assignment
  | .assign name source pos => some ⟨name, source, pos⟩
  | _ => none

/-- The assignments among the parts of an expression. -/
def assignments (e : Expr) : List Assignment :=
  e.parts.filterMap assignment?

theorem assignments_flatMap (es : List Expr) :
    (es.flatMap parts).filterMap assignment? = es.flatMap assignments :=
  List.filterMap_flatMap

/-- An expression is its last assignment, if it is one. -/
theorem assignments_eq (e : Expr) :
    e.assignments = e.operands.flatMap assignments ++ e.assignment?.toList := by
  rw [assignments, parts_eq, List.filterMap_append, assignments_flatMap]
  cases e <;> rfl

end Expr

/-! ### Computing one expression after the other -/

variable {e : Expr} {es ds : List Expr} {env mid env' : Environment} {value : Value} {f : Fault}

/-- The expressions can be computed, one after the other. -/
inductive Computed : Environment → List Expr → Environment → Prop
  | nil {env : Environment} : Computed env [] env
  | cons {env mid env' : Environment} {e : Expr} {es : List Expr} {value : Value}
      (he : e.eval env = .ok value mid) (hes : Computed mid es env') : Computed env (e :: es) env'

theorem Computed.append (h : Computed env ds mid) (h' : Computed mid es env') :
    Computed env (ds ++ es) env' := by
  induction h with
  | nil => exact h'
  | cons he _ ih => exact .cons he (ih h')

theorem Computed.single (h : e.eval env = .ok value env') : Computed env [e] env' :=
  .cons h .nil

/-- The result of an application leaves the variables alone. -/
theorem env_of_blame {pos : Position} {r : Except FaultCause Value}
    (h : blame pos r env = .ok value env') : env' = env := by
  cases r with
  | ok v => exact (EStateM.Result.ok.inj h).2.symm
  | error cause => cases h

theorem error_of_blame {pos : Position} {r : Except FaultCause Value}
    (h : blame pos r env = .error f env') : f.pos = pos ∧ env' = env := by
  cases r with
  | ok v => cases h
  | error cause =>
    obtain ⟨rfl, rfl⟩ := EStateM.Result.error.inj h
    exact ⟨rfl, rfl⟩

namespace Expr

/-- An expression has a value when all operands have. The expression itself changes the
    variables only if it is an assignment. -/
theorem computed_of_eval (h : e.eval env = .ok value env') :
    ∃ here, Computed env e.operands here ∧ (e.assignment? = none ∧ env' = here ∨
      ∃ a, e.assignment? = some a ∧ a.source.eval env = .ok value here ∧
        here.assign? a.name value = some env') := by
  cases e with
  | literal v pos =>
    obtain ⟨-, rfl⟩ := EStateM.Result.ok.inj h
    exact ⟨env, .nil, .inl ⟨rfl, rfl⟩⟩
  | var name pos =>
    obtain ⟨v, here, hv, h⟩ := bind_apply_eq_ok h
    obtain ⟨-, rfl⟩ := EStateM.Result.ok.inj h
    cases hf : env.find? name with
    | none =>
      rw [Environment.resolve_of_none hf] at hv
      cases hv
    | some w =>
      rw [Environment.resolve_of_find? hf] at hv
      obtain ⟨-, rfl⟩ := EStateM.Result.ok.inj hv
      exact ⟨env, .nil, .inl ⟨rfl, rfl⟩⟩
  | assign name source pos =>
    obtain ⟨v, here, hs, h⟩ := bind_apply_eq_ok h
    obtain ⟨_, there, hw, h⟩ := bind_apply_eq_ok h
    obtain ⟨rfl, rfl⟩ := EStateM.Result.ok.inj h
    cases ha : here.assign? name v with
    | none =>
      rw [Environment.write_of_none ha] at hw
      cases hw
    | some env₁ =>
      rw [Environment.write_of_assign? ha] at hw
      obtain ⟨-, rfl⟩ := EStateM.Result.ok.inj hw
      exact ⟨here, .single hs, .inr ⟨_, rfl, hs, ha⟩⟩
  | unary op operand pos =>
    obtain ⟨v, here, ho, h⟩ := bind_apply_eq_ok h
    exact ⟨here, .single ho, .inl ⟨rfl, env_of_blame h⟩⟩
  | binary op left right pos =>
    -- The operator gets to see its operands only after both have been computed.
    obtain ⟨l, mid, hl, h⟩ := bind_apply_eq_ok h
    obtain ⟨r, here, hr, h⟩ := bind_apply_eq_ok h
    exact ⟨here, .cons hl (.single hr), .inl ⟨rfl, env_of_blame h⟩⟩

/-- An expression fails by itself when all operands have values, or else because of the
    first one that has none. -/
theorem fails_cases (h : e.eval env = .error f env') :
    (Computed env e.operands env' ∧ f.pos = e.pos) ∨
    ∃ first o last mid, e.operands = first ++ o :: last ∧ Computed env first mid ∧
      o.eval mid = .error f env' := by
  cases e with
  | literal v pos => cases h
  | var name pos =>
    cases hf : env.find? name with
    | some v =>
      rw [eval, bind_apply_of_ok (Environment.resolve_of_find? hf)] at h
      cases h
    | none =>
      rw [eval, bind_apply_of_error (Environment.resolve_of_none hf)] at h
      obtain ⟨rfl, rfl⟩ := EStateM.Result.error.inj h
      exact .inl ⟨.nil, rfl⟩
  | assign name source pos =>
    cases hs : source.eval env with
    | error g here =>
      rw [eval, bind_apply_of_error hs] at h
      obtain ⟨rfl, rfl⟩ := EStateM.Result.error.inj h
      exact .inr ⟨[], source, [], env, rfl, .nil, hs⟩
    | ok v here =>
      rw [eval, bind_apply_of_ok hs] at h
      cases ha : here.assign? name v with
      | some env₁ =>
        rw [bind_apply_of_ok (Environment.write_of_assign? ha)] at h
        cases h
      | none =>
        rw [bind_apply_of_error (Environment.write_of_none ha)] at h
        obtain ⟨rfl, rfl⟩ := EStateM.Result.error.inj h
        exact .inl ⟨.single hs, rfl⟩
  | unary op operand pos =>
    cases ho : operand.eval env with
    | error g here =>
      rw [eval, bind_apply_of_error ho] at h
      obtain ⟨rfl, rfl⟩ := EStateM.Result.error.inj h
      exact .inr ⟨[], operand, [], env, rfl, .nil, ho⟩
    | ok v here =>
      rw [eval, bind_apply_of_ok ho] at h
      obtain ⟨hp, rfl⟩ := error_of_blame h
      exact .inl ⟨.single ho, hp⟩
  | binary op left right pos =>
    cases hl : left.eval env with
    | error g here =>
      rw [eval, bind_apply_of_error hl] at h
      obtain ⟨rfl, rfl⟩ := EStateM.Result.error.inj h
      exact .inr ⟨[], left, [right], env, rfl, .nil, hl⟩
    | ok l mid =>
      rw [eval, bind_apply_of_ok hl] at h
      cases hr : right.eval mid with
      | error g here =>
        rw [bind_apply_of_error hr] at h
        obtain ⟨rfl, rfl⟩ := EStateM.Result.error.inj h
        exact .inr ⟨[left], right, [], mid, rfl, .single hl, hr⟩
      | ok r here =>
        rw [bind_apply_of_ok hr] at h
        obtain ⟨hp, rfl⟩ := error_of_blame h
        exact .inl ⟨.cons hl (.single hr), hp⟩

end Expr

/-! ### Writes -/

/-- An assignment with the value that it assigns. -/
structure Write where
  /-- The assignment. -/
  assignment : Assignment
  /-- The value of the right side. -/
  value : Value

/-- The name that is written to, with its new value. -/
def Write.entry (w : Write) : String × Value :=
  (w.assignment.name, w.value)

variable {ws us : List Write}

/-- The second environment is the first one after the writes, from left to right. Each
    write assigns the value of its right side, which was computed from an environment
    that had some of the earlier writes and left the one that has all of them. -/
inductive Performed : Environment → List Write → Environment → Prop
  | nil {env : Environment} : Performed env [] env
  | write {env start here there : Environment} {before inside : List Write} {w : Write}
      (hb : Performed env before start) (hi : Performed start inside here)
      (hv : w.assignment.source.eval start = .ok w.value here)
      (ha : here.assign? w.assignment.name w.value = some there) :
      Performed env (before ++ inside ++ [w]) there

namespace Performed

theorem append (h : Performed env ws mid) (h' : Performed mid us env') :
    Performed env (ws ++ us) env' := by
  -- By induction on the later writes, as the last one of them is the last one of all.
  induction h' with
  | nil => rwa [List.append_nil]
  | @write mid start here there before inside w _ hi hv ha ih _ =>
    rw [← List.append_assoc, ← List.append_assoc]
    exact .write (ih h) hi hv ha

/-- The writes are done one after the other. -/
theorem foldlM_eq (h : Performed env ws env') :
    ws.foldlM (fun env w => env.assign? w.assignment.name w.value) env = some env' := by
  induction h with
  | nil => rfl
  | write _ _ _ ha ihb ihi =>
    rw [List.foldlM_append, List.foldlM_append, ihb]
    simp [ihi, ha]

end Performed

/-- Writes that can be done one after the other enter their values. -/
theorem entered_of_foldlM
    (h : ws.foldlM (fun env w => env.assign? w.assignment.name w.value) env = some env') :
    env.Entered (ws.map Write.entry) env' := by
  induction ws generalizing env with
  | nil =>
    obtain rfl := Option.some.inj h
    exact env.entered_nil
  | cons w ws ih =>
    rw [List.foldlM_cons, Option.bind_eq_bind, Option.bind_eq_some_iff] at h
    obtain ⟨env₁, ha, h⟩ := h
    obtain ⟨k, v, hv⟩ := Environment.exists_standsAt_of_assign? ha
    exact hv.entered ha (ih h)

theorem Performed.entered (h : Performed env ws env') : env.Entered (ws.map Write.entry) env' :=
  entered_of_foldlM h.foldlM_eq

/-- The expressions do all their assignments, if each of them does. -/
theorem Computed.performed_of (h : Computed env es env')
    (hes : ∀ e ∈ es, ∀ {env env' : Environment} {value : Value}, e.eval env = .ok value env' →
      ∃ ws, Performed env ws env' ∧ ws.map Write.assignment = e.assignments) :
    ∃ ws, Performed env ws env' ∧ ws.map Write.assignment = es.flatMap Expr.assignments := by
  induction h with
  | nil => exact ⟨[], .nil, rfl⟩
  | cons he _ ih =>
    obtain ⟨he', hes⟩ := List.forall_mem_cons.1 hes
    obtain ⟨ws, hw, hwa⟩ := he' he
    obtain ⟨us, hu, hua⟩ := ih hes
    refine ⟨ws ++ us, hw.append hu, ?_⟩
    rw [List.map_append, hwa, hua, List.flatMap_cons]

/-- An expression that has a value does all its assignments. -/
theorem Expr.performed_of_eval (h : e.eval env = .ok value env') :
    ∃ ws, Performed env ws env' ∧ ws.map Write.assignment = e.assignments := by
  induction e using Expr.of_operands generalizing env value env' with
  | h e ih =>
    obtain ⟨here, hc, hlast⟩ := computed_of_eval h
    obtain ⟨ws, hw, hwa⟩ := hc.performed_of fun o ho _ _ _ => ih o ho
    rw [assignments_eq]
    -- The writes of the operands are all, unless the expression itself is an assignment.
    rcases hlast with ⟨ha, rfl⟩ | ⟨a, ha, hs, hset⟩
    · refine ⟨ws, hw, ?_⟩
      rw [hwa, ha]
      exact (List.append_nil _).symm
    · refine ⟨ws ++ [⟨a, value⟩], .write .nil hw hs hset, ?_⟩
      rw [List.map_append, hwa, ha]
      rfl

theorem Computed.performed (h : Computed env es env') :
    ∃ ws, Performed env ws env' ∧ ws.map Write.assignment = es.flatMap Expr.assignments :=
  h.performed_of fun _ _ _ _ _ => Expr.performed_of_eval

/-! ### Where a computation stops -/

namespace Expr

/-- The computation of `e` gets as far as `part`. Before that it computes `done` and then the
    operands of `part`. -/
structure StopsAt (env : Environment) (e : Expr) (done : List Expr) (part : Expr) (f : Fault)
    (env' : Environment) : Prop where
  /-- These are all parts before it. -/
  parts_prefix : (done ++ part.operands).flatMap parts ++ [part] <+: e.parts
  /-- They can be computed, but the part itself cannot. -/
  fails : ∃ start, Computed env done start ∧ Computed start part.operands env' ∧
    part.eval start = .error f env'
  /-- The part is to blame. -/
  pos_eq : f.pos = part.pos

variable {done : List Expr} {part : Expr}

theorem StopsAt.computed (h : e.StopsAt env done part f env') :
    Computed env (done ++ part.operands) env' := by
  obtain ⟨start, hd, ho, -⟩ := h.fails
  exact hd.append ho

/-- The assignments done are the first ones. -/
theorem StopsAt.assignments_prefix (h : e.StopsAt env done part f env') :
    (done ++ part.operands).flatMap assignments <+: e.assignments := by
  have hp := (List.prefix_append _ _).trans h.parts_prefix
  rw [← assignments_flatMap]
  exact hp.filterMap assignment?

/-- A computation stops where that of an operand stops. -/
theorem StopsAt.of_operand {o : Expr} {first last : List Expr}
    (ho : e.operands = first ++ o :: last) (hf : Computed env first mid)
    (h : o.StopsAt mid done part f env') : e.StopsAt env (first ++ done) part f env' where
  parts_prefix := by
    have he : e.parts = first.flatMap parts ++ (o.parts ++ (last.flatMap parts ++ [e])) := by
      rw [parts_eq, ho]
      simp
    rw [he, List.append_assoc, List.flatMap_append, List.append_assoc]
    exact (List.prefix_append_right_inj _).2 (h.parts_prefix.trans (List.prefix_append _ _))
  fails := by
    obtain ⟨start, hd, hp⟩ := h.fails
    exact ⟨start, hf.append hd, hp⟩
  pos_eq := h.pos_eq

/-- A computation that fails stops at the first part that cannot be computed. -/
theorem exists_stopsAt (h : e.eval env = .error f env') :
    ∃ done part, e.StopsAt env done part f env' := by
  induction e using of_operands generalizing env with
  | h e ih =>
    rcases fails_cases h with ⟨ho, hp⟩ | ⟨first, o, last, mid, ho, hf, h'⟩
    · refine ⟨[], e, ⟨[], ?_⟩, ⟨env, .nil, ho, h⟩, hp⟩
      rw [List.append_nil, List.nil_append, ← parts_eq]
    · obtain ⟨done, part, hs⟩ := ih o (by simp [ho]) h'
      exact ⟨first ++ done, part, hs.of_operand ho hf⟩

/-- An expression that has a value writes once for each of its assignments, in their order
    and whatever its operators are. One that fails does so at its first part that cannot be
    computed, after the writes of all assignments before that part, which are the first ones
    of the expression. In both cases each write gives the variable that its name stands for
    the value of the right side, and nothing else changes. -/
theorem eval_performs (e : Expr) (m : Machine) :
    (∃ value env, Exec.eval e m = .ok value { m with env } ∧
      ∃ ws, ws.map Write.assignment = e.assignments ∧
        Performed m.env ws env ∧ m.env.Entered (ws.map Write.entry) env) ∨
    (∃ f env, Exec.eval e m = .error (.fault f) { m with env } ∧
      ∃ done part, e.StopsAt m.env done part f env ∧
      ∃ ws, ws.map Write.assignment = (done ++ part.operands).flatMap assignments ∧
        ws.map Write.assignment <+: e.assignments ∧
        Performed m.env ws env ∧ m.env.Entered (ws.map Write.entry) env) := by
  cases h : e.eval m.env with
  | ok value env =>
    obtain ⟨ws, hw, ha⟩ := performed_of_eval h
    exact .inl ⟨value, env, Exec.eval_of_ok h, ws, ha, hw, hw.entered⟩
  | error f env =>
    obtain ⟨done, part, hs⟩ := exists_stopsAt h
    obtain ⟨ws, hw, ha⟩ := hs.computed.performed
    exact .inr ⟨f, env, Exec.eval_of_error h, done, part, hs, ws, ha,
      ha ▸ hs.assignments_prefix, hw, hw.entered⟩

-- The left operand decides, and the right one assigns all the same.
example (pos : Position) :
    (Expr.binary .and (.literal (.boolean false) pos)
        (.assign "b" (.literal (.boolean true) pos) pos) pos).eval
      ⟨⟨[("b", ⟨.boolean, .boolean false⟩)]⟩, []⟩ =
      .ok (.boolean false) ⟨⟨[("b", ⟨.boolean, .boolean true⟩)]⟩, []⟩ := by
  rfl

end Expr

end Tudlo
