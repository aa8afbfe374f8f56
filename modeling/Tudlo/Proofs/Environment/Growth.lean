import Mathlib.Data.List.Forall2
import Tudlo.Environment

/-!
# Environments that grow

While a program runs, names are declared and assigned to, but no frame ever
loses one. An environment *grows* into another one when they have the same
number of frames and each frame of the first has its names in the frame of the
second at the same depth (`Environment.Grows`). Values and declared types are
not compared.

Comparing frame by frame, and not only what can be looked up, is what survives
the end of a block: when the innermost frame is taken away on both sides, the
others still compare (`Environment.Grows.pop`).
-/

namespace Tudlo

namespace Frame

/-- Every name of the first frame is a name of the second one. -/
def Within (f g : Frame) : Prop :=
  ∀ name, (f.find? name).isSome = true → (g.find? name).isSome = true

theorem Within.refl (f : Frame) : f.Within f :=
  fun _ h => h

theorem Within.trans {f g h : Frame} (hfg : f.Within g) (hgh : g.Within h) : f.Within h :=
  fun name hf => hgh name (hfg name hf)

theorem within_insert (f : Frame) (name : String) (v : Variable) : f.Within (f.insert name v) := by
  intro other ho
  by_cases h : other = name
  · rw [h, find?_insert_self]
    rfl
  · rw [find?_insert_of_ne f v h]
    exact ho

theorem within_of_assign? {f g : Frame} {name : String} {value : Value}
    (h : f.assign? name value = some g) : f.Within g := by
  obtain ⟨v, _, rfl⟩ := Option.map_eq_some_iff.1 h
  exact f.within_insert name _

end Frame

namespace Environment

variable {env env' env'' : Environment} {name : String} {value : Value}

/-- Each frame has its names in the frame at the same depth, and there are as
    many frames. -/
def Grows (env env' : Environment) : Prop :=
  List.Forall₂ Frame.Within env.frames env'.frames

theorem Grows.refl (env : Environment) : env.Grows env :=
  List.forall₂_same.2 fun f _ => .refl f

theorem forall₂_within_trans {fs gs hs : List Frame} (h : List.Forall₂ Frame.Within fs gs)
    (h' : List.Forall₂ Frame.Within gs hs) : List.Forall₂ Frame.Within fs hs := by
  induction h generalizing hs with
  | nil => exact h'
  | cons hfg _ ih =>
    cases h' with
    | cons hgh h' => exact .cons (hfg.trans hgh) (ih h')

theorem Grows.trans (h : env.Grows env') (h' : env'.Grows env'') : env.Grows env'' :=
  forall₂_within_trans h h'

/-- A name stands for a variable when some frame has one. -/
theorem isSome_find?_iff :
    (env.find? name).isSome = true ↔ ∃ f ∈ env.frames, (f.find? name).isSome = true := by
  rw [find?, List.findSome?_isSome_iff]

theorem exists_of_forall₂_within {fs gs : List Frame} (h : List.Forall₂ Frame.Within fs gs)
    (hn : ∃ f ∈ fs, (f.find? name).isSome = true) : ∃ g ∈ gs, (g.find? name).isSome = true := by
  induction h with
  | nil => exact hn
  | @cons f g _ _ hfg _ ih =>
    obtain ⟨f', hf, hfn⟩ := hn
    rcases List.mem_cons.1 hf with rfl | hf
    · exact ⟨g, List.mem_cons_self, hfg name hfn⟩
    · obtain ⟨g', hg, hgn⟩ := ih ⟨f', hf, hfn⟩
      exact ⟨g', List.mem_cons_of_mem _ hg, hgn⟩

/-- What could be looked up before still can be. -/
theorem Grows.isSome_find? (h : env.Grows env') (hn : (env.find? name).isSome = true) :
    (env'.find? name).isSome = true := by
  rw [isSome_find?_iff] at hn ⊢
  exact exists_of_forall₂_within h hn

theorem grows_define (env : Environment) (name : String) (v : Variable) :
    env.Grows (env.define name v) :=
  .cons (env.inner.within_insert name v) (List.forall₂_same.2 fun f _ => .refl f)

/-- What grew inside a block has grown around it. -/
theorem Grows.pop (h : env.push.Grows env') : env.Grows env'.pop := by
  obtain ⟨g, gs⟩ := env'
  cases h with
  | cons _ hf =>
    obtain ⟨f, fs⟩ := env
    cases hf with
    | cons hi ho => exact .cons hi ho

/-! ### Assignments -/

/-- An assignment goes to the first of all frames that has the name. -/
theorem frames_assign? (env : Environment) (name : String) (value : Value) :
    (env.assign? name value).map frames = assignIn? name value env.frames := by
  rw [assign?, frames, assignIn?]
  cases env.inner.assign? name value with
  | some f => rfl
  | none => rw [Option.map_map]; rfl

theorem forall₂_within_of_assignIn? {fs gs : List Frame}
    (h : assignIn? name value fs = some gs) : List.Forall₂ Frame.Within fs gs := by
  induction fs generalizing gs with
  | nil => exact nomatch h
  | cons f fs ih =>
    rw [assignIn?] at h
    cases hf : f.assign? name value with
    | some g =>
      rw [hf] at h
      obtain rfl := Option.some.inj h
      exact .cons (Frame.within_of_assign? hf) (List.forall₂_same.2 fun f _ => .refl f)
    | none =>
      rw [hf] at h
      obtain ⟨hs, hfs, rfl⟩ := Option.map_eq_some_iff.1 h
      exact .cons (.refl f) (ih hfs)

theorem isSome_assignIn? {fs : List Frame} (h : ∃ f ∈ fs, (f.find? name).isSome = true) :
    (assignIn? name value fs).isSome = true := by
  induction fs with
  | nil => exact absurd h (by simp)
  | cons f fs ih =>
    rw [assignIn?]
    cases hf : f.assign? name value with
    | some g => rfl
    | none =>
      rw [Frame.assign?, Option.map_eq_none_iff] at hf
      obtain ⟨g, hg, hgn⟩ := h
      -- The name is not in the first frame, so it is in a later one.
      rcases List.mem_cons.1 hg with rfl | hg
      · rw [hf] at hgn
        exact nomatch hgn
      · rw [Option.isSome_map]
        exact ih ⟨g, hg, hgn⟩

theorem grows_of_assign? (h : env.assign? name value = some env') : env.Grows env' := by
  have hf : assignIn? name value env.frames = some env'.frames := by
    rw [← frames_assign?, h, Option.map_some]
  exact forall₂_within_of_assignIn? hf

/-- A name that stands for a variable can be assigned to. -/
theorem isSome_assign? (h : (env.find? name).isSome = true) :
    (env.assign? name value).isSome = true := by
  rw [← Option.isSome_map, frames_assign?]
  exact isSome_assignIn? (isSome_find?_iff.1 h)

end Environment

end Tudlo
