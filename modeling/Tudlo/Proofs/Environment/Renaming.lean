import Mathlib.Data.Set.Function
import Tudlo.Proofs.Environment.Matching

/-!
# Environments under other names

An environment can have all its names replaced (`Environment.rename`). The variables
stay in their places, with their types and values. As long as no two names become
one, a name stands for the same variable as its replacement does after the renaming
(`Frame.paired_of_injOn`), so that all that is done to environments can be done
before or after it.

The replacement is asked to keep apart only the names of some set that has all names
in the environment (`Frame.Renamed`). That is all that a program with names in the
set can tell.
-/

namespace Tudlo

variable {ρ : String → String} {N : Set String}

namespace Frame

/-- The frame with every name replaced. -/
def rename (ρ : String → String) (f : Frame) : Frame :=
  ⟨f.bindings.map (Prod.map ρ id)⟩

/-- All names in the frame are of the set, and the other frame has them replaced. -/
structure Renamed (ρ : String → String) (N : Set String) (f g : Frame) : Prop where
  within : ∀ b ∈ f.bindings, b.1 ∈ N
  eq : g = f.rename ρ

theorem renamed_empty (ρ : String → String) (N : Set String) : Renamed ρ N {} {} :=
  ⟨by simp, rfl⟩

theorem beq_of_injOn (hρ : N.InjOn ρ) {name other : String} (hn : name ∈ N) (ho : other ∈ N) :
    (ρ name == ρ other) = (name == other) := by
  rw [Bool.eq_iff_iff, beq_iff_eq, beq_iff_eq, hρ.eq_iff hn ho]

theorem lookup_rename (hρ : N.InjOn ρ) {name : String} (hn : name ∈ N)
    {bs : List (String × Variable)} (hb : ∀ b ∈ bs, b.1 ∈ N) :
    (bs.map (Prod.map ρ id)).lookup (ρ name) = bs.lookup name := by
  induction bs with
  | nil => rfl
  | cons b bs ih =>
    obtain ⟨other, v⟩ := b
    rw [List.forall_mem_cons] at hb
    rw [List.map_cons, Prod.map_apply, List.lookup_cons, List.lookup_cons,
      beq_of_injOn hρ hn hb.1, ih hb.2]
    rfl

theorem replace_rename (hρ : N.InjOn ρ) {name : String} (hn : name ∈ N) (v : Variable)
    {bs : List (String × Variable)} (hb : ∀ b ∈ bs, b.1 ∈ N) :
    replace (ρ name) v (bs.map (Prod.map ρ id)) = (replace name v bs).map (Prod.map ρ id) := by
  induction bs with
  | nil => rfl
  | cons b bs ih =>
    obtain ⟨other, w⟩ := b
    rw [List.forall_mem_cons] at hb
    rw [List.map_cons, Prod.map_apply, replace, replace, beq_of_injOn hρ hn hb.1, ih hb.2]
    split <;> rfl

/-- Nothing gets into the frame under another name than the one given. -/
theorem mem_of_mem_replace {name : String} {v : Variable} {bs : List (String × Variable)}
    {b : String × Variable} (h : b ∈ replace name v bs) : b = (name, v) ∨ b ∈ bs := by
  induction bs with
  | nil => exact .inl (List.mem_singleton.1 h)
  | cons c bs ih =>
    rw [replace] at h
    split at h
    · exact (List.mem_cons.1 h).imp_right (List.mem_cons_of_mem _)
    · rcases List.mem_cons.1 h with rfl | h
      · exact .inr List.mem_cons_self
      · exact (ih h).imp_right (List.mem_cons_of_mem _)

/-- A name of the set goes with its replacement. -/
theorem paired_of_injOn (hρ : N.InjOn ρ) {name : String} (hn : name ∈ N) :
    Paired (Renamed ρ N) name (ρ name) where
  find?_eq := by
    rintro f _ ⟨hb, rfl⟩
    exact (lookup_rename hρ hn hb).symm
  insert := by
    rintro f _ v ⟨hb, rfl⟩
    refine ⟨fun b h => ?_, congrArg Frame.mk (replace_rename hρ hn v hb)⟩
    rcases mem_of_mem_replace h with rfl | h
    · exact hn
    · exact hb b h

end Frame

namespace Environment

/-- The environment with every name replaced, in all frames. -/
def rename (ρ : String → String) (env : Environment) : Environment :=
  ⟨env.inner.rename ρ, env.outer.map (Frame.rename ρ)⟩

theorem eq_map_of_renamed {fs gs : List Frame} (h : List.Forall₂ (Frame.Renamed ρ N) fs gs) :
    gs = fs.map (Frame.rename ρ) := by
  induction h with
  | nil => rfl
  | cons hfg _ ih => rw [List.map_cons, hfg.eq, ih]

/-- The environment that matches is the one with the names replaced. -/
theorem Matched.eq_rename {env env' : Environment} (h : env.Matched (Frame.Renamed ρ N) env') :
    env' = env.rename ρ := by
  obtain ⟨f, fs⟩ := env
  obtain ⟨g, gs⟩ := env'
  obtain ⟨rfl, rfl⟩ := List.cons.inj (eq_map_of_renamed h)
  rfl

/-- Declaring several names goes with declaring their replacements. -/
theorem Matched.foldl_define {env env' : Environment} {names : List String} (hρ : N.InjOn ρ)
    (hn : ∀ name ∈ names, name ∈ N) (v : Variable) (h : env.Matched (Frame.Renamed ρ N) env') :
    (names.foldl (fun env n => env.define n v) env).Matched (Frame.Renamed ρ N)
      ((names.map ρ).foldl (fun env n => env.define n v) env') := by
  induction names generalizing env env' with
  | nil => exact h
  | cons name names ih =>
    rw [List.forall_mem_cons] at hn
    exact ih hn.2 (h.define (Frame.paired_of_injOn hρ hn.1) v)

end Environment

end Tudlo
