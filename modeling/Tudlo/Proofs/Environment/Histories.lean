import Tudlo.Proofs.Environment.Slots
import Tudlo.Proofs.Machine.Actions

/-!
# Histories of environments

An environment has a *history*: the frames that were added and taken away, and the
variables that were declared and written, one operation after the other (`Operation`,
`Environment.perform`). A write that fails is one of them, and leaves the environment as it
is.

Frames are counted from the outside here. The *level* of a frame is the number of frames
around it, so it stays the same as long as the frame is there, whatever happens inside
(`Environment.atLevel`). A write *lands* on the variable of a name at a level when no
frame inside has the name at that moment (`Environment.landing?`).

* `atLevel_apply`: what one operation does to a variable that is not in the innermost
  frame is to give it the value that lands on it;
* `atLevel_perform`: so do many operations, and the last value is the one that stays;
* `after_scoped`: the laws of scoping, after any history.
-/

namespace Tudlo

/-- What can be done to an environment. -/
inductive Operation where
  /-- Adds a frame. -/
  | push
  /-- Takes the innermost frame away. -/
  | pop
  /-- Declares a variable. -/
  | define (name : String) (v : Variable)
  /-- Writes to a variable. -/
  | write (name : String) (value : Value) (pos : Position)

namespace Operation

/-- The environment after the operation, which may have failed. -/
def apply (env : Environment) : Operation → Environment
  | push => env.push
  | pop => env.pop
  | define name v => env.define name v
  | write name value pos => stateAfter (Environment.write name value pos) env

/-- How many frames are open after the operations when `n` were open before, unless one is
    taken away that was not open. -/
def openAfter : Nat → List Operation → Option Nat
  | n, [] => some n
  | n, push :: ops => openAfter (n + 1) ops
  | 0, pop :: _ => none
  | n + 1, pop :: ops => openAfter n ops
  | n, define _ _ :: ops => openAfter n ops
  | n, write _ _ _ :: ops => openAfter n ops

/-- Each frame that is added is taken away again, and no others. -/
def Balanced (ops : List Operation) : Prop :=
  openAfter 0 ops = some 0

instance (ops : List Operation) : Decidable (Balanced ops) :=
  inferInstanceAs (Decidable (_ = _))

end Operation

/-- The variable after the values were written to it, of which the last one stays. -/
def Variable.updated (v : Variable) (values : List Value) : Variable :=
  { v with value := values.getLast?.getD v.value }

theorem Variable.map_updated_nil (o : Option Variable) : (o.map fun v => v.updated []) = o := by
  cases o <;> rfl

theorem Variable.updated_append (v : Variable) (before after : List Value) :
    v.updated (before ++ after) = (v.updated before).updated after := by
  rw [updated, updated, updated, List.getLast?_append]
  cases after.getLast? <;> rfl

open Operation (openAfter)

namespace Environment

variable {env env' : Environment} {ops : List Operation} {level : Nat} {name : String}

/-- The environment after the operations, one after the other. -/
def perform (env : Environment) (ops : List Operation) : Environment :=
  ops.foldl Operation.apply env

/-- The variable that the frame at the level has under the name. The outermost frame is at
    the level zero. -/
def atLevel (env : Environment) (level : Nat) (name : String) : Option Variable :=
  Frame.slot env.frames.reverse level name

/-- No frame inside the one at the level has the name. -/
def Exposes (env : Environment) (level : Nat) (name : String) : Prop :=
  ∀ inside < env.depth, level < inside → env.atLevel inside name = none

instance (env : Environment) (level : Nat) (name : String) : Decidable (env.Exposes level name) :=
  inferInstanceAs (Decidable (∀ inside < env.depth, _))

/-- The value that the operation writes to the variable of the name at the level, if it is
    a write to the name and no frame inside has it. -/
def landing? (level : Nat) (name : String) (env : Environment) : Operation → Option Value
  | .write other value _ => if other = name ∧ env.Exposes level name then some value else none
  | _ => none

/-- The values that the operations write to the variable of the name at the level, in
    order. -/
def landings (level : Nat) (name : String) : Environment → List Operation → List Value
  | _, [] => []
  | env, op :: ops => (landing? level name env op).toList ++ landings level name (op.apply env) ops

/-! ### Levels -/

theorem atLevel_eq_slot (h : level < env.depth) (name : String) :
    env.atLevel level name = env.slot (env.depth - 1 - level) name := by
  rw [atLevel, Frame.slot, List.getElem?_reverse h]
  rfl

theorem atLevel_of_le (h : env.depth ≤ level) (name : String) : env.atLevel level name = none := by
  rw [atLevel, Frame.slot, List.getElem?_eq_none (by rwa [List.length_reverse])]
  rfl

theorem lt_depth_of_atLevel {v : Variable} (h : env.atLevel level name = some v) :
    level < env.depth := by
  by_contra hle
  rw [atLevel_of_le (Nat.not_lt.1 hle)] at h
  cases h

/-- A name stands at the variable that no frame inside hides. -/
theorem standsAt_of_exposes {v : Variable} (he : env.Exposes level name)
    (hv : env.atLevel level name = some v) : env.StandsAt name (env.depth - 1 - level) v := by
  have hl := lt_depth_of_atLevel hv
  refine ⟨by rw [← atLevel_eq_slot hl, hv], fun j hj => ?_⟩
  have hin := he (env.depth - 1 - j) (by omega) (by omega)
  rwa [atLevel_eq_slot (by omega), show env.depth - 1 - (env.depth - 1 - j) = j by omega] at hin

/-- No frame inside hides the variable that a name stands at. -/
theorem exposes_of_standsAt {v : Variable} (hl : level < env.depth)
    (h : env.StandsAt name (env.depth - 1 - level) v) : env.Exposes level name := by
  intro inside hi hlt
  rw [atLevel_eq_slot hi]
  exact h.2 _ (by omega)

/-- All levels but the last are those of the frames around the innermost one. -/
theorem atLevel_eq_outer (h : level + 1 < env.depth) (name : String) :
    env.atLevel level name = Frame.slot env.outer.reverse level name := by
  have hl : level < env.outer.reverse.length := by
    rw [List.length_reverse]
    exact Nat.lt_of_succ_lt_succ h
  rw [atLevel, frames, Frame.slot, List.reverse_cons, List.getElem?_append_left hl]
  rfl

theorem atLevel_push (h : level < env.depth) (name : String) :
    env.push.atLevel level name = env.atLevel level name :=
  atLevel_eq_outer (Nat.succ_lt_succ h) name

theorem atLevel_pop (h : level + 1 < env.depth) (name : String) :
    env.pop.atLevel level name = env.atLevel level name := by
  rw [atLevel_eq_outer h]
  obtain ⟨inner, outer⟩ := env
  cases outer with
  | nil => exact absurd h (by simp [depth, frames])
  | cons f fs => rfl

theorem atLevel_define (h : level + 1 < env.depth) (other : String) (v : Variable)
    (name : String) : (env.define other v).atLevel level name = env.atLevel level name := by
  rw [atLevel_eq_outer h, atLevel_eq_outer (by rwa [depth_define]), define]

/-! ### One operation -/

theorem depth_pop (env : Environment) (h : 1 < env.depth) : env.pop.depth + 1 = env.depth := by
  obtain ⟨inner, outer⟩ := env
  cases outer with
  | nil => exact absurd h (by simp [depth, frames])
  | cons f fs => rfl

theorem pop_of_depth (h : env.depth = 1) : env.pop = env := by
  obtain ⟨inner, outer⟩ := env
  cases outer with
  | nil => rfl
  | cons f fs => exact absurd h (by simp [depth, frames])

/-- Reading and writing come to the same variable, the one where the name stands: reading
    gives its type and its value, and writing changes the value and nothing else. If the
    name stands nowhere, both fail, and nothing changes. -/
theorem resolution (env : Environment) (name : String) (pos : Position) :
    (∃ k v, env.StandsAt name k v ∧ resolve name pos env = .ok v env ∧
      ∀ value, ∃ env', write name value pos env = .ok () env' ∧ env'.shape = env.shape ∧
        env'.slot k name = some { v with value } ∧
        ∀ j other, ¬ (j = k ∧ other = name) → env'.slot j other = env.slot j other) ∨
    ((∀ k, env.slot k name = none) ∧
      resolve name pos env = .error ⟨.unknownVariable name, pos⟩ env ∧
      ∀ value, write name value pos env = .error ⟨.unknownVariable name, pos⟩ env) := by
  cases hf : env.find? name with
  | some v =>
    obtain ⟨k, hv⟩ := find?_eq_some_iff.1 hf
    refine .inl ⟨k, v, hv, resolve_of_find? hf, fun value => ?_⟩
    obtain ⟨env', ha, hset, hkeep⟩ := hv.assign? value
    exact ⟨env', write_of_assign? ha, shape_of_assign? ha, hset, hkeep⟩
  | none =>
    have hn := find?_eq_none_iff.1 hf
    refine .inr ⟨hn, resolve_of_none hf, fun value => write_of_none ?_⟩
    cases ha : env.assign? name value with
    | none => rfl
    | some env' =>
      obtain ⟨k, v, hv⟩ := exists_standsAt_of_assign? ha
      exact absurd ((hn k).symm.trans hv.1) (by simp)

theorem depth_write (env : Environment) (name : String) (value : Value) (pos : Position) :
    (stateAfter (write name value pos) env).depth = env.depth := by
  rcases env.resolution name pos with ⟨_, _, _, _, hw⟩ | ⟨_, _, hw⟩
  · obtain ⟨env', hx, hshape, -⟩ := hw value
    rw [stateAfter_of_ok hx]
    exact depth_of_outerShape (shape_eq_iff.1 hshape).2
  · rw [stateAfter_of_error (hw value)]

theorem landing?_write_of_ne {other : String} (h : other ≠ name) (value : Value)
    (pos : Position) : landing? level name env (.write other value pos) = none :=
  if_neg fun hc => h hc.1

/-- A write gives a variable the value that lands on it. -/
theorem atLevel_write (hl : level < env.depth) (other : String) (value : Value)
    (pos : Position) (name : String) :
    (stateAfter (write other value pos) env).atLevel level name =
      (env.atLevel level name).map fun v =>
        v.updated (landing? level name env (.write other value pos)).toList := by
  have hd := env.depth_write other value pos
  rcases env.resolution other pos with ⟨k, v, hv, -, hw⟩ | ⟨hn, -, hw⟩
  · obtain ⟨env', hx, -, hset, hkeep⟩ := hw value
    rw [stateAfter_of_ok hx] at hd ⊢
    rw [atLevel_eq_slot (hd ▸ hl), hd]
    by_cases hk : env.depth - 1 - level = k ∧ name = other
    · obtain ⟨rfl, rfl⟩ := hk
      rw [hset, atLevel_eq_slot hl, hv.1, landing?, if_pos ⟨rfl, exposes_of_standsAt hl hv⟩]
      rfl
    · -- The write goes somewhere else, so it does not land here.
      rw [hkeep _ _ hk, ← atLevel_eq_slot hl]
      cases ha : env.atLevel level name with
      | none => rfl
      | some w =>
        have hn : landing? level name env (.write other value pos) = none := by
          refine if_neg ?_
          rintro ⟨rfl, he⟩
          exact hk ⟨((standsAt_of_exposes he ha).unique hv).1.symm, rfl⟩
        rw [hn]
        rfl
  · rw [stateAfter_of_error (hw value)]
    by_cases ho : other = name
    · rw [← ho, atLevel_eq_slot hl, hn, Option.map_none]
    · rw [landing?_write_of_ne ho, Option.toList_none, Variable.map_updated_nil]

/-- What an operation does to a variable that is not in the innermost frame is to give it
    the value that lands on it. -/
theorem atLevel_apply (h : level + 1 < env.depth) (op : Operation) (name : String) :
    (op.apply env).atLevel level name =
      (env.atLevel level name).map fun v => v.updated (landing? level name env op).toList := by
  have hnone := (Variable.map_updated_nil (env.atLevel level name)).symm
  cases op with
  | push => exact (atLevel_push (Nat.lt_of_succ_lt h) name).trans hnone
  | pop => exact (atLevel_pop h name).trans hnone
  | define other v => exact (atLevel_define h other v name).trans hnone
  | write other value pos => exact atLevel_write (Nat.lt_of_succ_lt h) other value pos name

theorem depth_pos (env : Environment) : 0 < env.depth :=
  Nat.succ_pos _

/-- The outermost frame loses no name. -/
theorem isSome_root_apply (op : Operation) (h : (env.atLevel 0 name).isSome = true) :
    ((op.apply env).atLevel 0 name).isSome = true := by
  by_cases hd : 0 + 1 < env.depth
  · rwa [atLevel_apply hd, Option.isSome_map]
  · have h1 : env.depth = 1 := by
      have := env.depth_pos
      omega
    cases op with
    | push =>
      show (env.push.atLevel 0 name).isSome = true
      rwa [atLevel_push env.depth_pos]
    | pop =>
      show (env.pop.atLevel 0 name).isSome = true
      rwa [pop_of_depth h1]
    | define other v =>
      -- The outermost frame is the innermost one too, so it is the one that grows.
      show ((env.define other v).atLevel 0 name).isSome = true
      rw [atLevel_eq_slot env.depth_pos, h1] at h
      rw [atLevel_eq_slot (depth_pos _), depth_define, h1]
      exact env.inner.within_insert other v name h
    | write other value pos =>
      show ((stateAfter (write other value pos) env).atLevel 0 name).isSome = true
      rwa [atLevel_write env.depth_pos, Option.isSome_map]

/-! ### Many operations -/

theorem perform_append (env : Environment) (before after : List Operation) :
    env.perform (before ++ after) = (env.perform before).perform after :=
  List.foldl_append

theorem isSome_root_perform (ops : List Operation) (h : (env.atLevel 0 name).isSome = true) :
    ((env.perform ops).atLevel 0 name).isSome = true := by
  induction ops generalizing env with
  | nil => exact h
  | cons op ops ih => exact ih (isSome_root_apply op h)

/-- As long as no frame is taken away but those that were opened, each operation leaves at
    least one of them. -/
theorem exists_openAfter {op : Operation} {d n n' : Nat} (h : openAfter n (op :: ops) = some n')
    (hd : env.depth = d + n + 1) :
    ∃ k, openAfter k ops = some n' ∧ (op.apply env).depth = d + k + 1 := by
  cases op with
  | push => exact ⟨n + 1, h, by rw [Operation.apply, depth_push, hd]; rfl⟩
  | pop =>
    cases n with
    | zero => cases h
    | succ k =>
      have hp := env.depth_pop (by omega)
      exact ⟨k, h, by rw [Operation.apply]; omega⟩
  | define other v =>
    refine ⟨n, ?_, by rw [Operation.apply, depth_define, hd]⟩
    rwa [openAfter] at h
  | write other value pos =>
    refine ⟨n, ?_, by rw [Operation.apply, depth_write, hd]⟩
    rwa [openAfter] at h

theorem depth_perform {d n n' : Nat} (h : openAfter n ops = some n')
    (hd : env.depth = d + n + 1) : (env.perform ops).depth = d + n' + 1 := by
  induction ops generalizing env n with
  | nil =>
    obtain rfl := Option.some.inj h
    exact hd
  | cons op ops ih =>
    obtain ⟨k, hk, hd'⟩ := exists_openAfter h hd
    exact ih hk hd'

/-- Whatever is done inside new frames, a variable around them only gets the values that
    land on it, and the last one stays. -/
theorem atLevel_perform {d n n' : Nat} (h : openAfter n ops = some n')
    (hd : env.depth = d + n + 1) (hl : level < d) (name : String) :
    (env.perform ops).atLevel level name =
      (env.atLevel level name).map fun v => v.updated (landings level name env ops) := by
  induction ops generalizing env n with
  | nil => exact (Variable.map_updated_nil _).symm
  | cons op ops ih =>
    obtain ⟨k, hk, hd'⟩ := exists_openAfter h hd
    refine (ih hk hd').trans ?_
    rw [atLevel_apply (by omega), Option.map_map, landings]
    exact Option.map_congr fun v _ => (v.updated_append _ _).symm

/-- Frames with the same names and types are of the same shape. -/
theorem shape_of_atLevel (hd : env'.depth = env.depth)
    (h : ∀ level name, (env'.atLevel level name).map Variable.type =
      (env.atLevel level name).map Variable.type) : env'.shape = env.shape := by
  have ht (e : Environment) (level : Nat) (name : String) :
      (e.atLevel level name).map Variable.type =
        e.shape.reverse[level]?.bind fun types => types name := by
    rw [atLevel, Frame.slot, shape, ← List.map_reverse, List.getElem?_map, Option.map_bind,
      Option.bind_map]
    rfl
  have hlen (e : Environment) : e.shape.reverse.length = e.depth := by
    rw [List.length_reverse, shape, List.length_map, depth]
  refine List.reverse_injective (List.ext_getElem? fun level => ?_)
  by_cases hl : level < env.depth
  · have hl' : level < env'.shape.reverse.length := by rwa [hlen, hd]
    have hl'' : level < env.shape.reverse.length := by rwa [hlen]
    rw [List.getElem?_eq_getElem hl', List.getElem?_eq_getElem hl'']
    refine congrArg some (funext fun name => ?_)
    have hn := h level name
    rw [ht, ht, List.getElem?_eq_getElem hl', List.getElem?_eq_getElem hl''] at hn
    exact hn
  · rw [List.getElem?_eq_none (by rw [hlen, hd]; omega),
      List.getElem?_eq_none (by rw [hlen]; omega)]

/-- The operations in a frame of their own. -/
def framed (ops : List Operation) : List Operation :=
  .push :: ops ++ [.pop]

theorem perform_framed (env : Environment) (ops : List Operation) :
    env.perform (framed ops) = (env.push.perform ops).pop := by
  rw [framed, perform_append]
  rfl

theorem depth_push_perform (h : Operation.Balanced ops) (env : Environment) :
    (env.push.perform ops).depth = env.depth + 1 :=
  depth_perform (d := env.depth) (n := 0) h env.depth_push

theorem depth_framed (h : Operation.Balanced ops) (env : Environment) :
    (env.perform (framed ops)).depth = env.depth := by
  have hd := depth_push_perform h env
  have hp := (env.push.perform ops).depth_pop (by have := env.depth_pos; omega)
  rw [perform_framed]
  omega

/-- What is done in a frame of its own gives each variable around it the last of the values
    that land on it. -/
theorem atLevel_framed (h : Operation.Balanced ops) (env : Environment) (level : Nat)
    (name : String) : (env.perform (framed ops)).atLevel level name =
      (env.atLevel level name).map fun v => v.updated (landings level name env.push ops) := by
  by_cases hl : level < env.depth
  · have hin : level + 1 < (env.push.perform ops).depth := by
      rw [depth_push_perform h]
      omega
    rw [perform_framed, atLevel_pop hin, atLevel_perform (n := 0) h env.depth_push hl,
      atLevel_push hl]
  · have hout : (env.perform (framed ops)).depth ≤ level := by
      rw [depth_framed h]
      omega
    rw [atLevel_of_le hout, atLevel_of_le (Nat.not_lt.1 hl), Option.map_none]

/-- All frames keep their names, and these the types that they were declared with. -/
theorem shape_framed (h : Operation.Balanced ops) (env : Environment) :
    (env.perform (framed ops)).shape = env.shape := by
  refine shape_of_atLevel (depth_framed h env) fun level name => ?_
  rw [atLevel_framed h, Option.map_map]
  rfl

/-! ### Scoping -/

/-- The environment after a history that began with nothing. -/
def after (history : List Operation) : Environment :=
  ({} : Environment).perform history

/-- The laws of scoping, after any history.

    There is always a frame, and the outermost one is never taken away, nor does it lose a
    name. Reading a name and writing to it come to the same variable, that of the innermost
    frame which has the name, and both fail exactly when no frame has it. What is done in a
    frame of its own, with frames that come and go inside it, leaves all frames with the
    names and types they had, and each variable with the last value that was written to it
    while no frame inside had its name, or with the value it had if there is none. -/
theorem after_scoped (history : List Operation) :
    0 < (after history).depth ∧
    ((after history).depth = 1 → (after history).pop = after history) ∧
    (∀ ops name, ((after history).atLevel 0 name).isSome = true →
      (((after history).perform ops).atLevel 0 name).isSome = true) ∧
    (∀ name pos,
      (∃ k v, (after history).StandsAt name k v ∧
        resolve name pos (after history) = .ok v (after history) ∧
        ∀ value, ∃ env', write name value pos (after history) = .ok () env' ∧
          env'.shape = (after history).shape ∧ env'.slot k name = some { v with value } ∧
          ∀ j other, ¬ (j = k ∧ other = name) →
            env'.slot j other = (after history).slot j other) ∨
      ((∀ k, (after history).slot k name = none) ∧
        resolve name pos (after history) =
          .error ⟨.unknownVariable name, pos⟩ (after history) ∧
        ∀ value, write name value pos (after history) =
          .error ⟨.unknownVariable name, pos⟩ (after history))) ∧
    ∀ ops, Operation.Balanced ops →
      ((after history).perform (framed ops)).shape = (after history).shape ∧
      ∀ level name v, (after history).atLevel level name = some v →
        ((after history).perform (framed ops)).atLevel level name =
          some { v with
            value := (landings level name (after history).push ops).getLast?.getD v.value } := by
  refine ⟨depth_pos _, pop_of_depth, fun ops name => isSome_root_perform ops,
    resolution _, fun ops h => ⟨shape_framed h _, fun level name v hv => ?_⟩⟩
  rw [atLevel_framed h, hv]
  rfl

/-- Two variables `x` and `y` in the outermost frame, and another `y` inside. -/
def shadowing : List Operation :=
  [.define "x" ⟨.integer, .integer 1⟩, .define "y" ⟨.boolean, .boolean false⟩, .push,
    .define "y" ⟨.character, .character 'a'⟩]

/-- Writes to `x` and `y`, some of which are kept from the variables around them by other
    declarations. -/
def excursion : List Operation :=
  [.write "x" (.integer 2) ⟨1, 1⟩, .push, .write "y" (.text "b") ⟨2, 1⟩,
    .define "x" ⟨.decimal, .null⟩, .write "x" (.integer 9) ⟨3, 1⟩, .pop,
    .define "y" ⟨.integer, .integer 0⟩, .write "y" (.integer 7) ⟨4, 1⟩,
    .write "z" (.integer 8) ⟨5, 1⟩]

/-- Of the writes to `x` the first one stays, and of those to `y` only one gets out, to the
    nearer variable. -/
theorem after_scoped_shadowing :
    Operation.Balanced excursion ∧
    ((after shadowing).perform (framed excursion)).shape = (after shadowing).shape ∧
    ((after shadowing).perform (framed excursion)).atLevel 0 "x" =
      some ⟨.integer, .integer 2⟩ ∧
    ((after shadowing).perform (framed excursion)).atLevel 1 "y" = some ⟨.character, .text "b"⟩ ∧
    ((after shadowing).perform (framed excursion)).atLevel 0 "y" =
      some ⟨.boolean, .boolean false⟩ := by
  have hb : Operation.Balanced excursion := rfl
  obtain ⟨-, -, -, -, hframed⟩ := after_scoped shadowing
  obtain ⟨hs, hv⟩ := hframed excursion hb
  exact ⟨hb, hs, hv 0 "x" ⟨.integer, .integer 1⟩ rfl, hv 1 "y" ⟨.character, .character 'a'⟩ rfl,
    hv 0 "y" ⟨.boolean, .boolean false⟩ rfl⟩

end Environment

end Tudlo
