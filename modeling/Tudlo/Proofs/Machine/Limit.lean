import Tudlo.Proofs.Machine.Induction

/-!
# The limit for loops

The limit bounds how often a loop may ask for its condition. It decides only
whether an execution is given up, never what the execution does: with a larger
limit an execution that was not given up comes to the same end, in the same
state.

* `Exec.GivesUpOr`: one action does the same as another one, or is given up;
* `Exec.limited_composed`: the ways of putting actions together keep this, when
  the limit for the other loops is at least as large;
* `Program.exec_of_le`: what a program did is what it does with any larger
  limit.
-/

namespace Tudlo

namespace Exec

/-- From every machine, the action `x` is given up or does the same as `y`. -/
def GivesUpOr {α : Type} (x y : Exec α) : Prop :=
  ∀ m, (∃ m', x m = .error .exhausted m') ∨ x m = y m

namespace GivesUpOr

variable {α β : Type}

protected theorem refl (x : Exec α) : GivesUpOr x x :=
  fun _ => .inr rfl

/-- Two actions one after the other. When the first one is given up, so are
    both. -/
theorem bind {x y : Exec α} {f g : α → Exec β} (h : GivesUpOr x y)
    (hf : ∀ a, GivesUpOr (f a) (g a)) : GivesUpOr (x >>= f) (y >>= g) := by
  intro m
  show (∃ m', EStateM.bind x f m = _) ∨ EStateM.bind x f m = EStateM.bind y g m
  rcases h m with ⟨m', h⟩ | h
  · exact .inl ⟨m', by rw [EStateM.bind, h]⟩
  · cases hy : y m with
    | ok a m' =>
      rw [hy] at h
      rcases hf a m' with ⟨m'', ha⟩ | ha
      · exact .inl ⟨m'', by rw [EStateM.bind, h]; exact ha⟩
      · exact .inr (by rw [EStateM.bind, EStateM.bind, h, hy]; exact ha)
    | error e m' =>
      rw [hy] at h
      exact .inr (by rw [EStateM.bind, EStateM.bind, h, hy])

/-- An action in a frame of its own. -/
theorem framed {x y : Exec α} (h : GivesUpOr x y) : GivesUpOr (Exec.framed x) (Exec.framed y) := by
  intro m
  rcases h m.push with ⟨m', h⟩ | h
  · exact .inl ⟨m'.pop, by rw [Exec.framed, h]⟩
  · exact .inr (by rw [Exec.framed, Exec.framed, h])

/-- The rounds of a loop, of which the other action may do more. -/
theorem rounds {condition condition' : Exec Bool} {x y : Exec Unit}
    (hc : GivesUpOr condition condition') (h : GivesUpOr x y) :
    ∀ {n k : Nat}, n ≤ k → GivesUpOr (Exec.rounds condition x n) (Exec.rounds condition' y k)
  | 0, _, _ => fun m => .inl ⟨m, rfl⟩
  | n + 1, k + 1, hk => by
    rw [Exec.rounds, Exec.rounds]
    refine bind hc fun b => ?_
    cases b with
    | false => exact .refl _
    | true => exact bind h fun _ => rounds hc h (Nat.le_of_succ_le_succ hk)

end GivesUpOr

/-- There is one level and one stage only. -/
abbrev Limited : Relation Unit Unit :=
  fun _ _ _ _ x y => GivesUpOr x y

theorem limited_composed {n k : Nat} (h : n ≤ k) : Composed id n k Limited where
  pure a := .refl (pure a)
  bind hx hf := hx.bind hf
  forget hx := hx
  framed hx := hx.framed
  rounds hc hx := .rounds hc hx h
  executing pos := .refl (record (.executing pos))
  print text := .refl (print text)

/-- The limit plays no part in what is done between loops. -/
theorem limited_parts : Translation.refl.Parts id Limited (fun _ _ _ _ => True)
    (fun _ _ _ => True) (fun _ _ _ => True) where
  declare _ := ⟨fun e _ => .refl (eval e), fun value => .refl (declare _ _ value)⟩
  print _ := ⟨rfl, .refl (eval _)⟩
  read _ := ⟨rfl, .refl (receive _ _)⟩
  block _ := ⟨rfl, trivial⟩
  choose _ := ⟨rfl, .refl (eval _), trivial, fun _ _ => trivial⟩
  loop _ := ⟨rfl, (), (), trivial, .refl (eval _), trivial, trivial⟩
  compute _ := ⟨rfl, .refl (eval _)⟩
  body _ := trivial
  cons _ := ⟨(), trivial, trivial⟩

end Exec

/-- With a larger limit statements do the same, or else they were given up. -/
theorem Statement.execAll_givesUpOr {n k : Nat} (h : n ≤ k) (ss : List Statement) :
    Exec.GivesUpOr (Statement.execAll n ss) (Statement.execAll k ss) := by
  obtain ⟨_, hx⟩ := Statement.execAll_of_parts (n := ()) (i := ()) (Exec.limited_composed h)
    Exec.limited_parts (trivial : True)
  exact hx

/-- A program that was not given up does the same with any larger limit. -/
theorem Program.exec_of_le {n k : Nat} (h : n ≤ k) (program : Program) (m : Machine) :
    (∃ m', program.exec n m = .error .exhausted m') ∨ program.exec n m = program.exec k m := by
  rcases Statement.execAll_givesUpOr h program m with ⟨m', hn⟩ | hn
  · exact .inl ⟨m', by rw [Program.exec, hn]⟩
  · exact .inr (by rw [Program.exec, Program.exec, hn])

end Tudlo
