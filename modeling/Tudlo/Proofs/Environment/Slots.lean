import Tudlo.Proofs.Environment.Shape

/-!
# Where variables are

A variable has its place in an environment: a name, and the depth of the frame that
holds it (`Environment.slot`). A name *stands at* the least depth where it has a variable
(`Environment.StandsAt`), so a frame hides what the frames around it have under the same
name.

To look up a name and to assign to it are two searches through the frames. They end at the
same place, the one where the name stands: this is the variable that a look-up gives
(`find?_eq_some_iff`) and the only one that an assignment changes (`StandsAt.assign?`).

Values can be *entered* into an environment one after the other (`Environment.Entered`).
All of them go to where their names stand, a later value replaces an earlier one, and
nothing else changes.
-/

namespace Tudlo

/-! ### Slots of frames -/

namespace Frame

variable {f : Frame} {fs gs : List Frame} {name other : String} {k : Nat} {v : Variable}

/-- What the frame at the depth `k` has under the name. -/
def slot (fs : List Frame) (k : Nat) (name : String) : Option Variable :=
  fs[k]?.bind fun f => f.find? name

/-- The name has the variable `v` at the depth `k`, and none inside. -/
def StandsAt (fs : List Frame) (name : String) (k : Nat) (v : Variable) : Prop :=
  slot fs k name = some v ∧ ∀ j < k, slot fs j name = none

theorem slot_zero (f : Frame) (fs : List Frame) (name : String) :
    slot (f :: fs) 0 name = f.find? name :=
  rfl

theorem slot_succ (f : Frame) (fs : List Frame) (k : Nat) (name : String) :
    slot (f :: fs) (k + 1) name = slot fs k name :=
  rfl

theorem standsAt_zero : StandsAt (f :: fs) name 0 v ↔ f.find? name = some v :=
  ⟨And.left, fun h => ⟨h, fun _ hj => absurd hj (Nat.not_lt_zero _)⟩⟩

theorem standsAt_succ :
    StandsAt (f :: fs) name (k + 1) v ↔ f.find? name = none ∧ StandsAt fs name k v := by
  constructor
  · rintro ⟨hv, hn⟩
    exact ⟨hn 0 (Nat.succ_pos k), hv, fun j hj => hn (j + 1) (Nat.succ_lt_succ hj)⟩
  · rintro ⟨hf, hv, hn⟩
    refine ⟨hv, fun j hj => ?_⟩
    cases j with
    | zero => exact hf
    | succ j => exact hn j (Nat.lt_of_succ_lt_succ hj)

/-- The search for a name ends where the name stands. -/
theorem findSome?_eq_some_iff :
    fs.findSome? (fun f => f.find? name) = some v ↔ ∃ k, StandsAt fs name k v := by
  induction fs with
  | nil => simp [StandsAt, slot]
  | cons f fs ih =>
    rw [List.findSome?_cons]
    cases hf : f.find? name with
    | some w =>
      constructor
      · rintro h
        exact ⟨0, standsAt_zero.2 (hf.trans h)⟩
      · rintro ⟨k, h⟩
        cases k with
        | zero => exact hf.symm.trans (standsAt_zero.1 h)
        | succ k => exact absurd (hf.symm.trans (standsAt_succ.1 h).1) (by simp)
    | none =>
      refine ih.trans ⟨fun ⟨k, h⟩ => ⟨k + 1, standsAt_succ.2 ⟨hf, h⟩⟩, fun ⟨k, h⟩ => ?_⟩
      cases k with
      | zero => exact absurd (hf.symm.trans (standsAt_zero.1 h)) (by simp)
      | succ k => exact ⟨k, (standsAt_succ.1 h).2⟩

/-- An assignment changes the value where the name stands, and nothing else. -/
theorem assignIn?_of_standsAt (h : StandsAt fs name k v) (value : Value) :
    ∃ gs, Environment.assignIn? name value fs = some gs ∧
      slot gs k name = some { v with value } ∧
      ∀ j other, ¬ (j = k ∧ other = name) → slot gs j other = slot fs j other := by
  induction fs generalizing k with
  | nil => exact absurd h.1 (by simp [slot])
  | cons f fs ih =>
    rw [Environment.assignIn?, assign?]
    cases k with
    | zero =>
      rw [standsAt_zero.1 h]
      refine ⟨_, rfl, f.find?_insert_self name _, fun j other hne => ?_⟩
      cases j with
      | zero => exact f.find?_insert_of_ne _ fun ho => hne ⟨rfl, ho⟩
      | succ j => rw [slot_succ, slot_succ]
    | succ k =>
      obtain ⟨hf, h⟩ := standsAt_succ.1 h
      obtain ⟨gs, hg, hk, hs⟩ := ih h
      rw [hf, hg]
      refine ⟨_, rfl, hk, fun j other hne => ?_⟩
      cases j with
      | zero => rw [slot_zero, slot_zero]
      | succ j => exact hs j other fun hj => hne ⟨congrArg (· + 1) hj.1, hj.2⟩

/-- Only a name that stands somewhere can be assigned to. -/
theorem exists_standsAt_of_assignIn? {value : Value}
    (h : Environment.assignIn? name value fs = some gs) : ∃ k v, StandsAt fs name k v := by
  induction fs generalizing gs with
  | nil => cases h
  | cons f fs ih =>
    rw [Environment.assignIn?, assign?] at h
    cases hf : f.find? name with
    | some v => exact ⟨0, v, standsAt_zero.2 hf⟩
    | none =>
      rw [hf, Option.map_none, Option.map_eq_some_iff] at h
      obtain ⟨hs, hg, -⟩ := h
      obtain ⟨k, v, hv⟩ := ih hg
      exact ⟨k + 1, v, standsAt_succ.2 ⟨hf, hv⟩⟩

end Frame

namespace Environment

variable {env env₁ env' : Environment} {name other : String} {k : Nat} {v : Variable}

/-! ### Slots of environments -/

/-- What the frame at the depth `k` has under the name. The innermost frame is at the
    depth zero. -/
def slot (env : Environment) (k : Nat) (name : String) : Option Variable :=
  Frame.slot env.frames k name

/-- The name has the variable `v` at the depth `k`, and none in the frames inside. -/
def StandsAt (env : Environment) (name : String) (k : Nat) (v : Variable) : Prop :=
  env.slot k name = some v ∧ ∀ j < k, env.slot j name = none

/-- A name stands for the variable that is where it stands. -/
theorem find?_eq_some_iff : env.find? name = some v ↔ ∃ k, env.StandsAt name k v :=
  Frame.findSome?_eq_some_iff

/-- A name that stands nowhere has no variable in any of the frames. -/
theorem find?_eq_none_iff : env.find? name = none ↔ ∀ k, env.slot k name = none := by
  rw [find?, List.findSome?_eq_none_iff]
  constructor
  · intro h k
    rw [slot, Frame.slot, Option.bind_eq_none_iff]
    intro f hf
    exact h f (List.mem_of_getElem? hf)
  · intro h f hf
    obtain ⟨k, hk⟩ := List.getElem?_of_mem hf
    have hs := h k
    rwa [slot, Frame.slot, hk] at hs

/-- A name stands at one place only. -/
theorem StandsAt.unique {j : Nat} {w : Variable} (h : env.StandsAt name k v)
    (h' : env.StandsAt name j w) : j = k ∧ w = v := by
  have hjk : j = k := by
    rcases Nat.lt_trichotomy j k with hlt | heq | hlt
    · exact absurd ((h.2 j hlt).symm.trans h'.1) (by simp)
    · exact heq
    · exact absurd ((h'.2 k hlt).symm.trans h.1) (by simp)
  subst hjk
  exact ⟨rfl, Option.some.inj (h'.1.symm.trans h.1)⟩

/-- A name that stands somewhere can be assigned to, which changes its value there and
    nothing else. -/
theorem StandsAt.assign? (h : env.StandsAt name k v) (value : Value) :
    ∃ env', env.assign? name value = some env' ∧ env'.slot k name = some { v with value } ∧
      ∀ j other, ¬ (j = k ∧ other = name) → env'.slot j other = env.slot j other := by
  obtain ⟨gs, hg, hs⟩ := Frame.assignIn?_of_standsAt h value
  rw [← frames_assign?] at hg
  obtain ⟨env', ha, rfl⟩ := Option.map_eq_some_iff.1 hg
  exact ⟨env', ha, hs⟩

theorem exists_standsAt_of_assign? {value : Value} (h : env.assign? name value = some env') :
    ∃ k v, env.StandsAt name k v := by
  have hf := env.frames_assign? name value
  rw [h, Option.map_some] at hf
  exact Frame.exists_standsAt_of_assignIn? hf.symm

/-! ### Environments of the same shape -/

theorem type_slot_of_shape (h : env'.shape = env.shape) (k : Nat) (name : String) :
    (env'.slot k name).map Variable.type = (env.slot k name).map Variable.type := by
  have ht (e : Environment) :
      (e.slot k name).map Variable.type = e.shape[k]?.bind fun types => types name := by
    rw [slot, Frame.slot, shape, List.getElem?_map, Option.map_bind, Option.bind_map]
    rfl
  rw [ht, ht, h]

/-- Names stand at the same places, with the same types. -/
theorem StandsAt.of_shape (hs : env'.shape = env.shape) (h : env.StandsAt name k v) :
    ∃ v', env'.StandsAt name k v' ∧ v'.type = v.type := by
  have hk := type_slot_of_shape hs k name
  rw [h.1, Option.map_some, Option.map_eq_some_iff] at hk
  obtain ⟨v', hv, ht⟩ := hk
  refine ⟨v', ⟨hv, fun j hj => ?_⟩, ht⟩
  have hn := type_slot_of_shape hs j name
  rwa [h.2 j hj, Option.map_none, Option.map_eq_none_iff] at hn

/-! ### Entering values -/

/-- The second environment is the first one with the values entered, from left to
    right. -/
structure Entered (env : Environment) (values : List (String × Value)) (env' : Environment) :
    Prop where
  /-- All frames keep their names, and these the types that they were declared with. -/
  shape_eq : env'.shape = env.shape
  /-- The last value for a name is the value of its variable. -/
  written : ∀ {before after : List (String × Value)} {name : String} {value : Value} {k : Nat}
    {v : Variable}, values = before ++ (name, value) :: after → name ∉ after.map Prod.fst →
    env.StandsAt name k v → env'.slot k name = some { v with value }
  /-- All other variables are as they were, the hidden ones included. -/
  kept : ∀ {name : String} {k : Nat},
    (name ∈ values.map Prod.fst → ∀ v, ¬ env.StandsAt name k v) →
    env'.slot k name = env.slot k name

theorem entered_nil (env : Environment) : env.Entered [] env where
  shape_eq := rfl
  written h := by simp at h
  kept _ := rfl

/-- One more value is entered first. -/
theorem StandsAt.entered {value : Value} {values : List (String × Value)}
    (h : env.StandsAt name k v) (ha : env.assign? name value = some env₁)
    (he : env₁.Entered values env') : env.Entered ((name, value) :: values) env' := by
  have hs : env₁.shape = env.shape := shape_of_assign? ha
  obtain ⟨env₂, ha', hset, hkeep⟩ := h.assign? value
  obtain rfl : env₁ = env₂ := Option.some.inj (ha.symm.trans ha')
  refine ⟨he.shape_eq.trans hs, ?_, ?_⟩
  · intro before after name' value' j w hv hn hw
    cases before with
    | nil =>
      -- This is the last value for the name, so the others leave it alone.
      obtain ⟨hp, rfl⟩ := List.cons.inj hv
      cases hp
      obtain ⟨rfl, rfl⟩ := h.unique hw
      rw [he.kept fun hm => absurd hm hn, hset]
    | cons p before =>
      obtain ⟨w', hw', ht⟩ := hw.of_shape hs
      rw [he.written (List.cons.inj hv).2 hn hw', ht]
  · intro name' j hn
    have hk : env₁.slot j name' = env.slot j name' := by
      refine hkeep j name' ?_
      rintro ⟨rfl, rfl⟩
      exact hn List.mem_cons_self v h
    rw [← hk]
    refine he.kept fun hm w hw => ?_
    obtain ⟨w', hw', -⟩ := hw.of_shape hs.symm
    exact hn (List.mem_cons_of_mem _ hm) w' hw'

end Environment

end Tudlo
