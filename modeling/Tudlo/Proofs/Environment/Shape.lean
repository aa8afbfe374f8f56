import Tudlo.Proofs.Environment.Growth

/-!
# The shape of an environment

The *shape* of an environment is what is left of it when the values are
forgotten: for each frame, the names that are declared in it and the types they
were declared with. There is one entry for every frame, so environments of the
same shape have as many frames.

An assignment keeps the shape (`shape_of_assign?`), and a declaration changes
the innermost entry only. What a block leaves of its own frame does not matter
to the shape of the frames around it (`shape_pop_of_outerShape`).
-/

namespace Tudlo

/-- The types that the names in the frame were declared with. -/
def Frame.types (f : Frame) (name : String) : Option ScalarType :=
  (f.find? name).map Variable.type

/-- An assignment does not change declared types, and adds no names. -/
theorem Frame.types_of_assign? {f g : Frame} {name : String} {value : Value}
    (h : f.assign? name value = some g) : g.types = f.types := by
  obtain ⟨v, hv, rfl⟩ := Option.map_eq_some_iff.1 h
  funext other
  by_cases ho : other = name
  · rw [ho, types, types, find?_insert_self, hv]
    rfl
  · rw [types, types, find?_insert_of_ne f _ ho]

namespace Environment

variable {env env' : Environment} {name : String} {value : Value}

/-- The names and declared types of all frames, the innermost first. -/
def shape (env : Environment) : List (String → Option ScalarType) :=
  env.frames.map Frame.types

/-- The names and declared types of all frames but the innermost. -/
def outerShape (env : Environment) : List (String → Option ScalarType) :=
  env.outer.map Frame.types

theorem shape_eq_cons (env : Environment) : env.shape = env.inner.types :: env.outerShape := rfl

/-- The shape is kept when it is kept inside and outside. -/
theorem shape_eq_iff : env'.shape = env.shape ↔
    env'.inner.types = env.inner.types ∧ env'.outerShape = env.outerShape := by
  rw [shape_eq_cons, shape_eq_cons, List.cons_eq_cons]

/-- As long as the frames around the innermost one are kept, so is the number
    of frames. -/
theorem depth_of_outerShape (h : env'.outerShape = env.outerShape) : env'.depth = env.depth := by
  have hl : env'.outer.length = env.outer.length := by
    simpa [outerShape] using congrArg List.length h
  rw [depth, depth, frames, frames, List.length_cons, List.length_cons, hl]

/-! ### Frames that come and go -/

/-- When a frame was added, and what was done since kept the frames around it,
    taking it away again gives the shape from before. -/
theorem shape_pop_of_outerShape (h : env'.outerShape = env.shape) : env'.pop.shape = env.shape := by
  obtain ⟨inner, outer⟩ := env'
  cases outer with
  | nil => exact absurd h (by simp [outerShape, shape_eq_cons])
  | cons f fs => exact h

/-! ### Assignments and declarations -/

/-- What every frame keeps when it is assigned to, all of them keep. -/
theorem map_of_assignIn? {γ : Type} {view : Frame → γ} {fs gs : List Frame}
    (hv : ∀ f g, f.assign? name value = some g → view g = view f)
    (h : assignIn? name value fs = some gs) : gs.map view = fs.map view := by
  induction fs generalizing gs with
  | nil => simp [assignIn?] at h
  | cons f fs ih =>
    rw [assignIn?] at h
    cases hf : f.assign? name value with
    | some g =>
      rw [hf] at h
      obtain rfl := Option.some.inj h
      rw [List.map_cons, List.map_cons, hv f g hf]
    | none =>
      rw [hf] at h
      obtain ⟨hs, hfs, rfl⟩ := Option.map_eq_some_iff.1 h
      rw [List.map_cons, List.map_cons, ih hfs]

theorem map_frames_of_assign? {γ : Type} {view : Frame → γ}
    (hv : ∀ f g, f.assign? name value = some g → view g = view f)
    (h : env.assign? name value = some env') : env'.frames.map view = env.frames.map view := by
  have hf : assignIn? name value env.frames = some env'.frames := by
    rw [← frames_assign?, h, Option.map_some]
  exact map_of_assignIn? hv hf

/-- An assignment keeps the shape. -/
theorem shape_of_assign? (h : env.assign? name value = some env') : env'.shape = env.shape :=
  map_frames_of_assign? (fun _ _ => Frame.types_of_assign?) h

/-- Names that are declared one after the other with the same variable have it,
    and the other names of the frame have what they had. -/
theorem find?_inner_foldl_define (v : Variable) (names : List String) (env : Environment)
    (name : String) :
    (names.foldl (fun env n => env.define n v) env).inner.find? name =
      if name ∈ names then some v else env.inner.find? name := by
  induction names generalizing env with
  | nil => simp
  | cons n names ih =>
    rw [List.foldl_cons, ih]
    by_cases hn : name ∈ names
    · rw [if_pos hn, if_pos (List.mem_cons_of_mem n hn)]
    · rw [if_neg hn, define]
      by_cases he : name = n
      · rw [he, Frame.find?_insert_self, if_pos List.mem_cons_self]
      · rw [Frame.find?_insert_of_ne _ v he, if_neg (by simp [he, hn])]

@[simp] theorem outer_foldl_define (v : Variable) (names : List String) (env : Environment) :
    (names.foldl (fun env n => env.define n v) env).outer = env.outer := by
  induction names generalizing env with
  | nil => rfl
  | cons n names ih => rw [List.foldl_cons, ih, define]

end Environment

end Tudlo
