import Tudlo.Proofs.Environment.Growth
import Tudlo.Proofs.Machine.Actions
import Tudlo.Proofs.Machine.Induction
import Tudlo.Proofs.Operator.Causes

/-!
# Names that are declared are found

A program is *well scoped* when every name in it is used where a declaration of
the name came before, in the same block or in one around it. This can be told
from the program alone (`Statement.Scoped`), and a program that is well scoped
never stops because of a name that stands for nothing.

What carries the proof is that an action *respects* a scope (`Respects`): from
an environment where the names of the scope can be found, the action does not
fail for want of a name, and when it succeeds, the environment has grown and
has the names that the action declares besides. Actions in sequence, in a frame
of their own and in a loop respect what their parts respect, and the stages of a
program are its scopes.

* `Expr.eval_respects`, `Statement.execAll_respects`: expressions and statements;
* `Program.exec_ne_unknownVariable`: programs, on every machine.
-/

namespace Tudlo

/-! ### Scopes -/

/-- The names whose declarations come before a place of a program, in the same
    block or in one around it. -/
abbrev Scope := List String

/-- All names in the expression are in scope. -/
def Expr.Scoped (Γ : Scope) : Expr → Prop
  | .literal _ _ => True
  | .var name _ => name ∈ Γ
  | .assign name value _ => name ∈ Γ ∧ value.Scoped Γ
  | .unary _ operand _ => operand.Scoped Γ
  | .binary _ left right _ => left.Scoped Γ ∧ right.Scoped Γ

/-- The names that a statement adds to the scope of what follows it. -/
def Statement.declared : Statement → Scope
  | .declare _ names _ _ => names
  | _ => []

mutual

/-- All names used in the statement are in scope. The first clause of a loop is
    around the others and the body, and the value of a declaration does not see
    the names that are declared. -/
def Statement.Scoped (Γ : Scope) : Statement → Prop
  | .declare _ _ initial _ => ∀ e ∈ initial, e.Scoped Γ
  | .print value _ => value.Scoped Γ
  | .read names _ => ∀ name ∈ names, name ∈ Γ
  | .block body => body.Scoped Γ
  | .choose condition whenTrue whenFalse _ =>
    condition.Scoped Γ ∧ whenTrue.Scoped Γ ∧ Block.ScopedAny Γ whenFalse
  | .loop initial condition step body _ =>
    initial.Scoped Γ ∧ condition.Scoped (initial.declared ++ Γ) ∧
      body.Scoped (initial.declared ++ Γ) ∧ step.Scoped (initial.declared ++ Γ)
  | .compute expr _ => expr.Scoped Γ
  termination_by structural s => s

/-- The statements of the block are well scoped, from the scope around it. -/
def Block.Scoped (Γ : Scope) : Block → Prop
  | ⟨statements, _⟩ => Statement.ScopedAll Γ statements
  termination_by structural b => b

/-- The block is well scoped, if there is one. -/
def Block.ScopedAny (Γ : Scope) : Option Block → Prop
  | none => True
  | some body => body.Scoped Γ
  termination_by structural b => b

/-- The statements are well scoped, each with the names declared by those
    before it. -/
def Statement.ScopedAll (Γ : Scope) : List Statement → Prop
  | [] => True
  | s :: rest => s.Scoped Γ ∧ Statement.ScopedAll (s.declared ++ Γ) rest
  termination_by structural ss => ss

end

instance Expr.decidableScoped (Γ : Scope) : (e : Expr) → Decidable (e.Scoped Γ)
  | .literal _ _ => inferInstanceAs (Decidable True)
  | .var name _ => inferInstanceAs (Decidable (name ∈ Γ))
  | .assign name value _ =>
    have := value.decidableScoped Γ
    inferInstanceAs (Decidable (name ∈ Γ ∧ value.Scoped Γ))
  | .unary _ operand _ => operand.decidableScoped Γ
  | .binary _ left right _ =>
    have := left.decidableScoped Γ
    have := right.decidableScoped Γ
    inferInstanceAs (Decidable (left.Scoped Γ ∧ right.Scoped Γ))

mutual

/-- Whether a statement is well scoped can be found out. -/
def Statement.decidableScoped (Γ : Scope) : (s : Statement) → Decidable (s.Scoped Γ)
  | .declare _ _ initial _ => inferInstanceAs (Decidable (∀ e ∈ initial, e.Scoped Γ))
  | .print value _ => value.decidableScoped Γ
  | .read names _ => inferInstanceAs (Decidable (∀ name ∈ names, name ∈ Γ))
  | .block body => body.decidableScoped Γ
  | .choose condition whenTrue whenFalse _ =>
    have := whenTrue.decidableScoped Γ
    have := Block.decidableScopedAny Γ whenFalse
    inferInstanceAs (Decidable
      (condition.Scoped Γ ∧ whenTrue.Scoped Γ ∧ Block.ScopedAny Γ whenFalse))
  | .loop initial condition step body _ =>
    have := initial.decidableScoped Γ
    have := body.decidableScoped (initial.declared ++ Γ)
    have := step.decidableScoped (initial.declared ++ Γ)
    inferInstanceAs (Decidable (initial.Scoped Γ ∧ condition.Scoped (initial.declared ++ Γ) ∧
      body.Scoped (initial.declared ++ Γ) ∧ step.Scoped (initial.declared ++ Γ)))
  | .compute expr _ => expr.decidableScoped Γ
  termination_by structural s => s

def Block.decidableScoped (Γ : Scope) : (b : Block) → Decidable (b.Scoped Γ)
  | ⟨statements, _⟩ => Statement.decidableScopedAll Γ statements
  termination_by structural b => b

def Block.decidableScopedAny (Γ : Scope) : (b : Option Block) → Decidable (Block.ScopedAny Γ b)
  | none => inferInstanceAs (Decidable True)
  | some body => body.decidableScoped Γ
  termination_by structural b => b

def Statement.decidableScopedAll (Γ : Scope) :
    (ss : List Statement) → Decidable (Statement.ScopedAll Γ ss)
  | [] => inferInstanceAs (Decidable True)
  | s :: rest =>
    have := s.decidableScoped Γ
    have := Statement.decidableScopedAll (s.declared ++ Γ) rest
    inferInstanceAs (Decidable (s.Scoped Γ ∧ Statement.ScopedAll (s.declared ++ Γ) rest))
  termination_by structural ss => ss

end

instance (Γ : Scope) (ss : List Statement) : Decidable (Statement.ScopedAll Γ ss) :=
  Statement.decidableScopedAll Γ ss

/-! ### Actions that respect a scope -/

/-- Every name of the scope stands for a variable. -/
def Environment.Covers (env : Environment) (Γ : Scope) : Prop :=
  ∀ name ∈ Γ, (env.find? name).isSome = true

theorem Environment.Covers.grows {env env' : Environment} {Γ : Scope} (h : env.Covers Γ)
    (hg : env.Grows env') : env'.Covers Γ :=
  fun name hn => hg.isSome_find? (h name hn)

theorem Environment.Covers.append {env : Environment} {Γ Δ : Scope} (h : env.Covers Γ)
    (h' : env.Covers Δ) : env.Covers (Γ ++ Δ) := by
  intro name hn
  rcases List.mem_append.1 hn with hn | hn
  · exact h name hn
  · exact h' name hn

theorem Environment.covers_nil (env : Environment) : env.Covers [] :=
  fun _ h => absurd h List.not_mem_nil

/-- Whether the cause of a fault is a name that stands for nothing. -/
def FaultCause.isUnknown : FaultCause → Bool
  | .unknownVariable _ => true
  | _ => false

/-- Whether an action stopped because of a name that stands for nothing. -/
def Halt.isUnknown : Halt → Bool
  | .fault f => f.cause.isUnknown
  | .exhausted => false

section Respects

variable {ε σ α β : Type}

/-- From a state whose environment covers `Γ`, the action succeeds with an
    environment that has grown and covers the names `D`, or it fails in a way
    that is `fine`. -/
def Respects (env : σ → Environment) (fine : ε → Prop) (Γ : Scope) (D : α → Scope)
    (x : EStateM ε σ α) : Prop :=
  ∀ s, (env s).Covers Γ →
    match x s with
    | .ok a s' => (env s).Grows (env s') ∧ (env s').Covers (D a)
    | .error e _ => fine e

variable {env : σ → Environment} {fine : ε → Prop} {Γ : Scope}

theorem Respects.pure {D : α → Scope} {a : α} (h : D a ⊆ Γ) :
    Respects env fine Γ D (pure a) :=
  fun s hs => ⟨.refl (env s), fun name hn => hs name (h hn)⟩

theorem Respects.throw {D : α → Scope} {e : ε} (h : fine e) :
    Respects env fine Γ D (throw e) :=
  fun _ _ => h

/-- Two actions one after the other. The second one sees the names that the
    first one declared. -/
theorem Respects.bind {D : α → Scope} {E : β → Scope} {x : EStateM ε σ α}
    {f : α → EStateM ε σ β} (hx : Respects env fine Γ D x)
    (hf : ∀ a, Respects env fine (D a ++ Γ) E (f a)) : Respects env fine Γ E (x >>= f) := by
  intro s hs
  have h := hx s hs
  show match EStateM.bind x f s with
    | .ok b s' => (env s).Grows (env s') ∧ (env s').Covers (E b)
    | .error e _ => fine e
  rw [EStateM.bind]
  cases hxs : x s with
  | error e s' =>
    rw [hxs] at h
    exact h
  | ok a s' =>
    rw [hxs] at h
    obtain ⟨hg, hd⟩ := h
    have h' := hf a s' (hd.append (hs.grows hg))
    dsimp only
    cases hfs : f a s' with
    | error e s'' =>
      rw [hfs] at h'
      exact h'
    | ok b s'' =>
      rw [hfs] at h'
      exact ⟨hg.trans h'.1, h'.2⟩

/-- More names in scope are no harm. -/
theorem Respects.mono {Δ : Scope} {D : α → Scope} {x : EStateM ε σ α}
    (h : Respects env fine Γ D x) (hs : Γ ⊆ Δ) : Respects env fine Δ D x :=
  fun s hc => h s fun name hn => hc name (hs hn)

/-- The names that were in scope before an action are still in scope after it. -/
theorem Respects.keep {D : α → Scope} {x : EStateM ε σ α} (h : Respects env fine Γ D x) :
    Respects env fine Γ (fun _ => Γ) x := by
  intro s hs
  have hx := h s hs
  cases hxs : x s with
  | ok a s' =>
    rw [hxs] at hx
    exact ⟨hx.1, hs.grows hx.1⟩
  | error e s' =>
    rw [hxs] at hx
    exact hx

end Respects

/-- An action on the variables that respects a scope. -/
abbrev Environment.Respects {α : Type} (Γ : Scope) (D : α → Scope)
    (x : EStateM Fault Environment α) : Prop :=
  Tudlo.Respects id (fun f : Fault => f.cause.isUnknown = false) Γ D x

/-- An action on a machine that respects a scope. -/
abbrev Exec.Respects {α : Type} (Γ : Scope) (D : α → Scope) (x : Exec α) : Prop :=
  Tudlo.Respects Machine.env (fun h : Halt => h.isUnknown = false) Γ D x

/-! ### Operators -/

/-- No operator with two operands fails for want of a name. -/
theorem BinaryOp.apply_named (op : BinaryOp) (l r : Value) :
    FailsOnly (fun cause => cause.isUnknown = false) (op.apply l r) := by
  intro cause h
  cases cause with
  | unknownVariable name => exact (op.failsOnly_apply l r _ h).elim
  | _ => rfl

/-- No operator with one operand does. -/
theorem UnaryOp.apply_named (op : UnaryOp) (v : Value) :
    FailsOnly (fun cause => cause.isUnknown = false) (op.apply v) := by
  intro cause h
  cases cause with
  | unknownVariable name => exact (op.failsOnly_apply v _ h).elim
  | _ => rfl

/-! ### Expressions -/

section Expressions

variable {Γ : Scope} {name : String} {pos : Position}

theorem blame_respects {α : Type} {r : Except FaultCause α}
    (h : FailsOnly (fun cause => cause.isUnknown = false) r) :
    Environment.Respects Γ (fun _ => []) (blame pos r) := by
  cases r with
  | ok a => exact .pure (List.nil_subset Γ)
  | error cause => exact .throw (h cause rfl)

theorem Environment.resolve_respects (h : name ∈ Γ) :
    Environment.Respects Γ (fun _ => []) (resolve name pos) := by
  intro env hc
  obtain ⟨v, hv⟩ : ∃ v, env.find? name = some v := Option.isSome_iff_exists.1 (hc name h)
  rw [resolve_of_find? hv]
  exact ⟨.refl env, env.covers_nil⟩

theorem Environment.write_respects {value : Value} (h : name ∈ Γ) :
    Environment.Respects Γ (fun _ => []) (write name value pos) := by
  intro env hc
  have hs : (env.assign? name value).isSome = true := isSome_assign? (hc name h)
  obtain ⟨env', he⟩ := Option.isSome_iff_exists.1 hs
  rw [write_of_assign? he]
  exact ⟨grows_of_assign? he, env'.covers_nil⟩

/-- An expression whose names are in scope is computed without missing any. -/
theorem Expr.eval_respects {e : Expr} (h : e.Scoped Γ) :
    Environment.Respects Γ (fun _ => []) e.eval := by
  induction e with
  | literal value pos => exact .pure (List.nil_subset Γ)
  | var name pos =>
    exact .bind (Environment.resolve_respects h) fun _ => .pure (List.nil_subset Γ)
  | assign name e pos ih =>
    refine .bind (ih h.2) fun value => ?_
    exact .bind (Environment.write_respects h.1) fun _ => .pure (List.nil_subset Γ)
  | unary op e pos ih =>
    exact .bind (ih h) fun value => blame_respects (op.apply_named value)
  | binary op l r pos ihl ihr =>
    refine .bind (ihl h.1) fun x => .bind (ihr h.2) fun y => ?_
    exact blame_respects (op.apply_named x y)

end Expressions

/-! ### Actions on machines -/

namespace Exec

variable {α : Type} {Γ : Scope} {D : α → Scope} {pos : Position}

/-- What changes nothing about the variables. -/
theorem respects_modify {f : Machine → Machine} (h : ∀ m, (f m).env = m.env) :
    Respects Γ (fun _ => []) (modify f : Exec Unit) := by
  intro m _
  show m.env.Grows (f m).env ∧ (f m).env.Covers []
  rw [h]
  exact ⟨.refl m.env, m.env.covers_nil⟩

theorem record_respects (e : Event) : Respects Γ (fun _ => []) (record e) :=
  respects_modify fun _ => rfl

theorem print_respects (text : String) : Respects Γ (fun _ => []) (print text) :=
  respects_modify fun _ => rfl

theorem fail_respects {cause : FaultCause} (h : cause.isUnknown = false) :
    Respects Γ D (fail cause pos) :=
  .throw h

theorem onVariables_respects {x : EStateM Fault Environment α} (h : Environment.Respects Γ D x) :
    Respects Γ D (onVariables x) := by
  intro m hm
  have hx := h m.env hm
  rw [onVariables]
  cases hr : x m.env with
  | ok a env =>
    rw [hr] at hx
    exact hx
  | error f env =>
    rw [hr] at hx
    exact hx

theorem eval_respects {e : Expr} (h : e.Scoped Γ) : Respects Γ (fun _ => []) (eval e) :=
  onVariables_respects (Expr.eval_respects h)

/-- Declaring names one after the other. -/
theorem grows_foldl_define (v : Variable) (names : List String) (env : Environment) :
    env.Grows (names.foldl (fun env name => env.define name v) env) ∧
      (names.foldl (fun env name => env.define name v) env).Covers names := by
  induction names generalizing env with
  | nil => exact ⟨.refl env, env.covers_nil⟩
  | cons n names ih =>
    obtain ⟨hg, hc⟩ := ih (env.define n v)
    refine ⟨(env.grows_define n v).trans hg, fun name hn => ?_⟩
    rcases List.mem_cons.1 hn with rfl | hn
    · exact hg.isSome_find? (by rw [Environment.find?_define_self]; rfl)
    · exact hc name hn

theorem declare_respects (type : ScalarType) (names : List String) (value : Value) :
    Respects Γ (fun _ => names ++ Γ) (declare type names value) := by
  intro m hm
  obtain ⟨hg, hc⟩ := grows_foldl_define ⟨type, value⟩ names m.env
  exact ⟨hg, hc.append (hm.grows hg)⟩

theorem nextLine_respects : Respects Γ (fun _ => []) (nextLine pos) := by
  intro m _
  obtain ⟨env, output, input, trace⟩ := m
  cases input with
  | nil => exact rfl
  | cons line rest => exact ⟨.refl env, env.covers_nil⟩

/-- The names that values were read for can be found. -/
theorem readFields_respects {fields : List (String × List Char)} (h : ∀ p ∈ fields, p.1 ∈ Γ) :
    Environment.Respects Γ (fun values => values.map Prod.fst) (readFields pos fields) := by
  induction fields with
  | nil => exact .pure (List.nil_subset Γ)
  | cons p fields ih =>
    obtain ⟨name, field⟩ := p
    rw [List.forall_mem_cons] at h
    refine .bind (Environment.resolve_respects h.1) fun v => ?_
    split
    · refine .bind (ih h.2) fun values => .pure ?_
      intro n hn
      rcases List.mem_cons.1 hn with rfl | hn
      · exact List.mem_append_right _ h.1
      · exact List.mem_append_left _ hn
    · exact .throw rfl

theorem writeFields_respects {values : List (String × Value)} (h : ∀ p ∈ values, p.1 ∈ Γ) :
    Environment.Respects Γ (fun _ => []) (writeFields pos values) := by
  induction values with
  | nil => exact .pure (List.nil_subset Γ)
  | cons p values ih =>
    rw [List.forall_mem_cons] at h
    exact .bind (Environment.write_respects h.1) fun _ => ih h.2

/-- Reading fields for names in scope and assigning what was read. -/
theorem exchangeFields_respects {names : List String} {fields : List (List Char)}
    (h : ∀ name ∈ names, name ∈ Γ) :
    Environment.Respects Γ (fun _ => []) (do
      let values ← readFields pos (names.zip fields)
      writeFields pos values) := by
  refine .bind (readFields_respects ?_) fun values => writeFields_respects fun p hp => ?_
  · rintro ⟨name, field⟩ hp
    exact h name (List.of_mem_zip hp).1
  · exact List.mem_append_left _ (List.mem_map_of_mem hp)

theorem receive_respects {names : List String} (h : ∀ name ∈ names, name ∈ Γ) :
    Respects Γ (fun _ => []) (receive names pos) := by
  refine .bind nextLine_respects fun line => ?_
  dsimp only
  split
  · exact .bind (onVariables_respects (exchangeFields_respects h)) fun _ => record_respects _
  · exact fail_respects rfl

/-- What is declared in a frame of its own is gone after it, and the rest is
    still there. -/
theorem framed_respects {x : Exec α} (h : Respects Γ D x) :
    Respects Γ (fun _ => []) (framed x) := by
  intro m hm
  -- A new frame hides nothing, so the scope is covered inside as well.
  have hx := h m.push hm
  rw [framed]
  cases hr : x m.push with
  | ok a m' =>
    rw [hr] at hx
    exact ⟨Environment.Grows.pop hx.1, Environment.covers_nil _⟩
  | error halt m' =>
    rw [hr] at hx
    exact hx

/-- The stages are the scopes that a program goes through. -/
abbrev RespectsScopes : Relation Unit Scope :=
  fun _ Γ Δ _ x _ => Respects Γ (fun _ => Δ) x

theorem respectsScopes_composed (limit : Nat) : Composed id limit limit RespectsScopes where
  pure _ := .pure (List.Subset.refl _)
  bind hx hf := .bind hx fun a => (hf a).mono (List.subset_append_left _ _)
  forget h := h.keep
  framed h := (framed_respects h).keep
  rounds := rounds_of_exhausted RespectsScopes (fun _ => .pure (List.Subset.refl _))
    (fun hx hf => .bind hx fun a => (hf a).mono (List.subset_append_left _ _)) (.throw rfl)
  executing _ := (record_respects _).keep
  print text := (print_respects text).keep

/-- A statement leads to the scope with the names that it declares. -/
theorem respectsScopes_parts : Translation.refl.Parts id RespectsScopes
    (fun _ Γ Δ s => s.Scoped Γ ∧ s.declared ++ Γ = Δ) (fun _ Γ b => b.Scoped Γ)
    (fun _ Γ ss => Statement.ScopedAll Γ ss) where
  declare := by
    rintro _ Γ _ type names initial pos ⟨h, rfl⟩
    exact ⟨fun e he => (eval_respects (h e he)).keep, declare_respects type names⟩
  print h := ⟨h.2, (eval_respects h.1).keep⟩
  read h := ⟨h.2, (receive_respects h.1).keep⟩
  block h := ⟨h.2, h.1⟩
  choose := by
    rintro _ Γ _ condition whenTrue whenFalse pos ⟨⟨hc, ht, hf⟩, hΔ⟩
    refine ⟨hΔ, (eval_respects hc).keep, ht, ?_⟩
    rintro b rfl
    exact hf
  loop := by
    rintro _ Γ _ initial condition step body pos ⟨⟨hi, hc, hb, hs⟩, hΔ⟩
    -- The condition, the body and the step see what the first clause declares.
    exact ⟨hΔ, _, _, ⟨hi, rfl⟩, (eval_respects hc).keep, ⟨hs, rfl⟩, hb⟩
  compute h := ⟨h.2, (eval_respects h.1).keep⟩
  body h := h
  cons h := ⟨_, ⟨h.1, rfl⟩, h.2⟩

end Exec

/-! ### Statements -/

/-- Well-scoped statements are executed without missing a name. -/
theorem Statement.execAll_respects {Γ : Scope} (limit : Nat) {ss : List Statement}
    (h : Statement.ScopedAll Γ ss) :
    Exec.Respects Γ (fun _ => Γ) (Statement.execAll limit ss) := by
  -- The names that the statements declare besides are not made use of.
  obtain ⟨_, hx⟩ := Statement.execAll_of_parts (n := ()) (Exec.respectsScopes_composed limit)
    Exec.respectsScopes_parts h
  exact hx.keep

/-- A well-scoped program never stops because of a name that stands for
    nothing, whatever the limit, the input and the rest of the machine are. -/
theorem Program.exec_ne_unknownVariable {program : Program}
    (h : Statement.ScopedAll [] program) (limit : Nat) (m m' : Machine) (name : String)
    (pos : Position) :
    program.exec limit m ≠ .error (.fault ⟨.unknownVariable name, pos⟩) m' := by
  intro he
  have hr := Statement.execAll_respects limit h m m.env.covers_nil
  obtain ⟨m₁, hx, -⟩ := Program.exec_eq_fault he
  rw [hx] at hr
  cases hr

/-- A program that counts up to a number it reads, with a name that is declared
    again inside of the loop. -/
def countingUp : Program :=
  [.declare .integer ["n"] none ⟨1, 1⟩,
   .read ["n"] ⟨2, 1⟩,
   .loop (.declare .integer ["i"] (some (.literal (.integer 0) ⟨3, 20⟩)) ⟨3, 10⟩)
     (.binary .less (.var "i" ⟨3, 30⟩) (.var "n" ⟨3, 40⟩) ⟨3, 35⟩)
     (.compute (.assign "i" (.binary .add (.var "i" ⟨3, 60⟩) (.literal (.integer 1) ⟨3, 70⟩)
       ⟨3, 65⟩) ⟨3, 50⟩) ⟨3, 50⟩)
     ⟨[.declare .integer ["n"] (some (.binary .mul (.var "n" ⟨4, 20⟩) (.var "i" ⟨4, 30⟩) ⟨4, 25⟩))
         ⟨4, 10⟩,
       .print (.var "n" ⟨5, 10⟩) ⟨5, 1⟩], ⟨3, 80⟩⟩ ⟨3, 1⟩,
   .print (.var "n" ⟨7, 10⟩) ⟨7, 1⟩]

/-- The counting program is well scoped, so no name is missing when it counts
    to three. -/
theorem Program.exec_ne_unknownVariable_countingUp : Statement.ScopedAll [] countingUp ∧
    ∀ m' name pos, countingUp.exec 4 { input := ["3"] } ≠
      .error (.fault ⟨.unknownVariable name, pos⟩) m' := by
  have h : Statement.ScopedAll [] countingUp := by decide
  exact ⟨h, fun m' name pos => Program.exec_ne_unknownVariable h 4 _ m' name pos⟩

end Tudlo
