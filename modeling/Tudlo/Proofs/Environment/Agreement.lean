import Tudlo.Proofs.Environment.Matching
import Tudlo.Proofs.Environment.Shape

/-!
# Environments that agree on all names but one

Two environments can differ in a single name only: it may be declared in other
frames, with other types and other values, and everything else is the same, frame
by frame (`Environment.AgreeBut`). Whatever is done to both in the same way, and
without the name, keeps them so and leaves the name alone in every frame. So the
comparison carries along what each frame has under the name, on both sides
(`Environment.Apart`).
-/

namespace Tudlo

namespace Frame

variable {x name : String} {f g : Frame}

/-- The frames have the same variables under all names other than `x`. -/
def AgreeBut (x : String) (f g : Frame) : Prop :=
  ∀ name, name ≠ x → f.find? name = g.find? name

theorem AgreeBut.refl (x : String) (f : Frame) : f.AgreeBut x f :=
  fun _ _ => rfl

theorem AgreeBut.insert (h : f.AgreeBut x g) (name : String) (v : Variable) :
    (f.insert name v).AgreeBut x (g.insert name v) := by
  intro other ho
  by_cases hn : other = name
  · rw [hn, find?_insert_self, find?_insert_self]
  · rw [find?_insert_of_ne f v hn, find?_insert_of_ne g v hn, h other ho]

/-- Frames that agree on all names but `x` have any other name in common. -/
theorem paired_of_ne (hn : name ≠ x) : Paired (AgreeBut x) name name :=
  ⟨fun h => h name hn, fun v h => h.insert name v⟩

/-- An assignment to another name leaves `x` alone. -/
theorem find?_of_assign? {value : Value} (hn : x ≠ name) (h : f.assign? name value = some g) :
    g.find? x = f.find? x := by
  obtain ⟨v, -, rfl⟩ := Option.map_eq_some_iff.1 h
  exact f.find?_insert_of_ne _ hn

end Frame

namespace Environment

variable {x name : String} {env env' : Environment} {bs cs : List (Option Variable)}

/-- What each frame has under the name, from the innermost one outwards. -/
def bindings (env : Environment) (x : String) : List (Option Variable) :=
  env.frames.map fun f => f.find? x

/-- There are as many frames, and those at the same depth agree on all names other
    than `x`. -/
def AgreeBut (x : String) (env env' : Environment) : Prop :=
  List.Forall₂ (Frame.AgreeBut x) env.frames env'.frames

/-- The environments agree on all names other than `x`, and under `x` the frames
    have `bs` in the one and `cs` in the other. -/
structure Apart (x : String) (bs cs : List (Option Variable)) (env env' : Environment) :
    Prop where
  agree : env.AgreeBut x env'
  left : env.bindings x = bs
  right : env'.bindings x = cs

/-! ### Looking up -/

/-- A name other than `x` stands for the same variable. -/
theorem AgreeBut.find?_eq (h : env.AgreeBut x env') (hn : name ≠ x) :
    env.find? name = env'.find? name :=
  Matched.find?_eq h (Frame.paired_of_ne hn)

/-! ### Assigning -/

/-- An assignment to a name other than `x` is possible in none of the environments or in
    both, and then they still agree after it. -/
theorem AgreeBut.assign? (h : env.AgreeBut x env') (hn : name ≠ x) (value : Value) :
    (env.assign? name value = none ∧ env'.assign? name value = none) ∨
      ∃ a b, env.assign? name value = some a ∧ env'.assign? name value = some b ∧
        a.AgreeBut x b :=
  Matched.assign? h (Frame.paired_of_ne hn) value

/-- An assignment to a name other than `x` leaves `x` alone in every frame. -/
theorem bindings_of_assign? {value : Value} (hn : name ≠ x)
    (h : env.assign? name value = some env') : env'.bindings x = env.bindings x :=
  map_frames_of_assign? (fun _ _ => Frame.find?_of_assign? hn.symm) h

theorem Apart.assign? (h : Apart x bs cs env env') (hn : name ≠ x) (value : Value) :
    (env.assign? name value = none ∧ env'.assign? name value = none) ∨
      ∃ a b, env.assign? name value = some a ∧ env'.assign? name value = some b ∧
        Apart x bs cs a b := by
  rcases h.agree.assign? hn value with h' | ⟨a, b, ha, hb, hab⟩
  · exact .inl h'
  · refine .inr ⟨a, b, ha, hb, hab, ?_, ?_⟩
    · rw [bindings_of_assign? hn ha, h.left]
    · rw [bindings_of_assign? hn hb, h.right]

/-! ### Declaring -/

theorem Apart.define (h : Apart x bs cs env env') (hn : name ≠ x) (v : Variable) :
    Apart x bs cs (env.define name v) (env'.define name v) := by
  obtain ⟨h, rfl, rfl⟩ := h
  cases h with
  | cons hi ho =>
    refine ⟨.cons (hi.insert name v) ho, ?_, ?_⟩
    · exact congrArg (· :: _) (env.inner.find?_insert_of_ne v hn.symm)
    · exact congrArg (· :: _) (env'.inner.find?_insert_of_ne v hn.symm)

theorem Apart.foldl_define {names : List String} (h : Apart x bs cs env env') (hx : x ∉ names)
    (v : Variable) : Apart x bs cs (names.foldl (fun env n => env.define n v) env)
      (names.foldl (fun env n => env.define n v) env') := by
  induction names generalizing env env' with
  | nil => exact h
  | cons n names ih =>
    rw [List.mem_cons, not_or] at hx
    exact ih (h.define (Ne.symm hx.1) v) hx.2

/-! ### Frames that come and go -/

/-- A new frame has nothing under the name. -/
theorem Apart.push (h : Apart x bs cs env env') :
    Apart x (none :: bs) (none :: cs) env.push env'.push :=
  ⟨.cons (.refl x {}) h.agree, congrArg (none :: ·) h.left, congrArg (none :: ·) h.right⟩

/-- When the innermost frame is taken away, the others are left as they are. There
    are others, as `bs` is what the frames of some environment have. -/
theorem Apart.pop {b c : Option Variable} (hb : bs ≠ []) (h : Apart x (b :: bs) (c :: cs) env env') :
    Apart x bs cs env.pop env'.pop := by
  obtain ⟨f, fs⟩ := env
  obtain ⟨g, gs⟩ := env'
  obtain ⟨h, hl, hr⟩ := h
  cases h with
  | cons _ ho =>
    cases ho with
    | nil => exact absurd (List.cons.inj hl).2.symm hb
    | cons hi ho => exact ⟨.cons hi ho, (List.cons.inj hl).2, (List.cons.inj hr).2⟩

theorem Apart.ne_nil (h : Apart x bs cs env env') : bs ≠ [] := by
  rw [← h.left]
  exact List.cons_ne_nil _ _

end Environment

end Tudlo
