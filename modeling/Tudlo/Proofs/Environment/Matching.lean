import Mathlib.Data.List.Forall2
import Tudlo.Proofs.Environment.Growth

/-!
# Environments that match frame by frame

Two environments *match* when they have as many frames and those at the same depth
are related (`Environment.Matched`). A name in the one is *paired* with a name in
the other when related frames have the same variable under the two, and are still
related when they both get a new one there (`Frame.Paired`).

Looking up, assigning and declaring under paired names does the same to environments
that match, and they match afterwards. Which relation it is does not matter.

As with growth, frames are compared at the same depth: a name hidden by the
innermost frame shows again when that frame is taken away.
-/

namespace Tudlo

namespace Frame

variable {Q : Frame → Frame → Prop} {name name' : String} {f g : Frame}

/-- Related frames have the same variable under `name` and `name'`, and they are
    still related when they both get a new one there. -/
structure Paired (Q : Frame → Frame → Prop) (name name' : String) : Prop where
  find?_eq {f g : Frame} : Q f g → f.find? name = g.find? name'
  insert {f g : Frame} (v : Variable) : Q f g → Q (f.insert name v) (g.insert name' v)

/-- Both frames have the name or none has, so an assignment is possible in both or
    in none. -/
theorem Paired.assign? (hn : Paired Q name name') (h : Q f g) (value : Value) :
    Option.Rel Q (f.assign? name value) (g.assign? name' value) := by
  rw [Frame.assign?, Frame.assign?, hn.find?_eq h]
  cases g.find? name' with
  | none => exact .none
  | some v => exact .some (hn.insert _ h)

end Frame

namespace Environment

variable {Q : Frame → Frame → Prop} {name name' : String} {env env' : Environment}

/-- There are as many frames, and those at the same depth are related. -/
def Matched (Q : Frame → Frame → Prop) (env env' : Environment) : Prop :=
  List.Forall₂ Q env.frames env'.frames

/-! ### Looking up -/

theorem findSome?_of_paired {fs gs : List Frame} (hn : Frame.Paired Q name name')
    (h : List.Forall₂ Q fs gs) :
    (fs.findSome? fun f => f.find? name) = gs.findSome? fun g => g.find? name' := by
  induction h with
  | nil => rfl
  | cons hfg _ ih => rw [List.findSome?_cons, List.findSome?_cons, hn.find?_eq hfg, ih]

/-- Paired names stand for the same variable. -/
theorem Matched.find?_eq (h : env.Matched Q env') (hn : Frame.Paired Q name name') :
    env.find? name = env'.find? name' :=
  findSome?_of_paired hn h

/-! ### Assigning -/

theorem assignIn?_of_paired {fs gs : List Frame} (hn : Frame.Paired Q name name')
    (h : List.Forall₂ Q fs gs) (value : Value) :
    Option.Rel (List.Forall₂ Q) (assignIn? name value fs) (assignIn? name' value gs) := by
  induction h with
  | nil => exact .none
  | @cons f g fs gs hfg h ih =>
    rw [assignIn?, assignIn?]
    -- Either both first frames have the name, or the search goes on in both.
    have hr := hn.assign? hfg value
    generalize f.assign? name value = f', g.assign? name' value = g' at hr ⊢
    cases hr with
    | some hg => exact .some (.cons hg h)
    | none =>
      generalize assignIn? name value fs = fs', assignIn? name' value gs = gs' at ih ⊢
      cases ih with
      | none => exact .none
      | some h' => exact .some (.cons hfg h')

/-- An assignment to paired names is possible in none of the environments or in both,
    and then they still match after it. -/
theorem Matched.assign? (h : env.Matched Q env') (hn : Frame.Paired Q name name')
    (value : Value) :
    (env.assign? name value = none ∧ env'.assign? name' value = none) ∨
      ∃ a b, env.assign? name value = some a ∧ env'.assign? name' value = some b ∧
        a.Matched Q b := by
  have hr := assignIn?_of_paired hn h value
  rw [← frames_assign?, ← frames_assign?] at hr
  generalize env.assign? name value = a, env'.assign? name' value = b at hr ⊢
  rcases a with _ | a <;> rcases b with _ | b <;> cases hr
  · exact .inl ⟨rfl, rfl⟩
  · exact .inr ⟨a, b, rfl, rfl, ‹_›⟩

/-! ### Declaring -/

theorem Matched.define (h : env.Matched Q env') (hn : Frame.Paired Q name name')
    (v : Variable) : (env.define name v).Matched Q (env'.define name' v) := by
  cases h with
  | cons hi ho => exact .cons (hn.insert v hi) ho

/-! ### Frames that come and go -/

theorem Matched.push (h : env.Matched Q env') (hQ : Q {} {}) : env.push.Matched Q env'.push :=
  .cons hQ h

theorem Matched.pop (h : env.Matched Q env') : env.pop.Matched Q env'.pop := by
  obtain ⟨f, fs⟩ := env
  obtain ⟨g, gs⟩ := env'
  cases h with
  | cons hi ho =>
    cases ho with
    | nil => exact .cons hi .nil
    | cons hi' ho' => exact .cons hi' ho'

end Environment

end Tudlo
