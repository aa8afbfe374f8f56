/-!
# Two runs side by side

Some facts are about two runs of a program and not about one: what the runs have
in common at the start, they still have in common at the end. Two runs are
*coupled* when they come to the same sort of end, both with a result or both with
an error, and the ends are related (`Coupled`). Most of the time the relation asks
for the same result or error, and for states that are still related as they were
before (`SameEnd`).

* `Coupled.bind`: one action after the other, in both runs;
* `Mirrors`: actions that keep a relation between the states, where the results and
  errors of the one are translations of those of the other;
* `Lockstep`: such actions, with nothing to translate;
* `Mirrors.bind_of_ok`, `Lockstep.bind_of_ok`: one after the other, where what is known
  about the first result helps with the second action.
-/

namespace Tudlo

section Coupled

variable {ε δ σ τ α β γ κ : Type}

/-- Both runs succeed, and then `A` holds of the results and the states, or both
    fail, and then `E` holds of the errors and the states. -/
inductive Coupled (A : α → σ → β → τ → Prop) (E : ε → σ → δ → τ → Prop) :
    EStateM.Result ε σ α → EStateM.Result δ τ β → Prop
  | ok {a : α} {s : σ} {b : β} {t : τ} (h : A a s b t) : Coupled A E (.ok a s) (.ok b t)
  | error {e : ε} {s : σ} {d : δ} {t : τ} (h : E e s d t) : Coupled A E (.error e s) (.error d t)

variable {A A' : α → σ → β → τ → Prop} {B : γ → σ → κ → τ → Prop} {E E' : ε → σ → δ → τ → Prop}

theorem Coupled.mono {r : EStateM.Result ε σ α} {r' : EStateM.Result δ τ β}
    (h : Coupled A E r r') (hA : ∀ a s b t, A a s b t → A' a s b t)
    (hE : ∀ e s d t, E e s d t → E' e s d t) : Coupled A' E' r r' := by
  cases h with
  | ok h => exact .ok (hA _ _ _ _ h)
  | error h => exact .error (hE _ _ _ _ h)

/-- Two runs go on after their first actions when these are coupled and succeed,
    and fail when these fail. -/
theorem Coupled.bind {x : EStateM ε σ α} {y : EStateM δ τ β} {f : α → EStateM ε σ γ}
    {g : β → EStateM δ τ κ} {s : σ} {t : τ} (h : Coupled A E (x s) (y t))
    (hf : ∀ a s' b t', x s = .ok a s' → A a s' b t' → Coupled B E (f a s') (g b t')) :
    Coupled B E ((x >>= f) s) ((y >>= g) t) := by
  show Coupled B E (EStateM.bind x f s) (EStateM.bind y g t)
  rw [EStateM.bind, EStateM.bind]
  cases hx : x s with
  | ok a s' =>
    cases hy : y t with
    | ok b t' =>
      rw [hx, hy] at h
      cases h with
      | ok hab => exact hf a s' b t' hx hab
    | error d t' =>
      rw [hx, hy] at h
      cases h
  | error e s' =>
    cases hy : y t with
    | ok b t' =>
      rw [hx, hy] at h
      cases h
    | error d t' =>
      rw [hx, hy] at h
      cases h with
      | error hed => exact .error hed

end Coupled

section Mirrors

variable {ε δ σ τ α β γ κ : Type} {R : σ → τ → Prop} {k : ε → δ}

/-- From related states, the second action does what the first one does: it succeeds
    with the translated result or fails with the translated error, and the states are
    related again. -/
def Mirrors (R : σ → τ → Prop) (k : ε → δ) (g : α → β) (x : EStateM ε σ α) (y : EStateM δ τ β) :
    Prop :=
  ∀ ⦃s t⦄, R s t →
    Coupled (fun a s' b t' => g a = b ∧ R s' t') (fun e s' d t' => k e = d ∧ R s' t') (x s) (y t)

namespace Mirrors

protected theorem pure {g : α → β} {a : α} {b : β} (h : g a = b) :
    Mirrors R k g (pure a : EStateM ε σ α) (pure b) :=
  fun _ _ hst => .ok ⟨h, hst⟩

protected theorem throw {g : α → β} {e : ε} {d : δ} (h : k e = d) :
    Mirrors R k g (throw e : EStateM ε σ α) (throw d) :=
  fun _ _ hst => .error ⟨h, hst⟩

/-- Changes that keep the relation. -/
protected theorem modify {f : σ → σ} {f' : τ → τ} (h : ∀ s t, R s t → R (f s) (f' t)) :
    Mirrors R k id (modify f : EStateM ε σ Unit) (modify f') :=
  fun s t hst => .ok ⟨rfl, h s t hst⟩

/-- One action after the other, where the second ones are compared only for
    results that the first one can have. -/
theorem bind_of_ok {g : α → β} {g' : γ → κ} {x : EStateM ε σ α} {y : EStateM δ τ β}
    {f : α → EStateM ε σ γ} {f' : β → EStateM δ τ κ} (h : Mirrors R k g x y)
    (hf : ∀ a s s', x s = .ok a s' → Mirrors R k g' (f a) (f' (g a))) :
    Mirrors R k g' (x >>= f) (y >>= f') := by
  intro s t hst
  refine Coupled.bind (h hst) ?_
  rintro a s' _ t' hx ⟨rfl, hst'⟩
  exact hf a s s' hx hst'

protected theorem bind {g : α → β} {g' : γ → κ} {x : EStateM ε σ α} {y : EStateM δ τ β}
    {f : α → EStateM ε σ γ} {f' : β → EStateM δ τ κ} (h : Mirrors R k g x y)
    (hf : ∀ a, Mirrors R k g' (f a) (f' (g a))) : Mirrors R k g' (x >>= f) (y >>= f') :=
  h.bind_of_ok fun a _ _ _ => hf a

end Mirrors

end Mirrors

section Lockstep

variable {ε σ τ α β : Type} {R : σ → τ → Prop}

/-- Both runs end with the same result or with the same error, in states that are
    related by `R`. -/
abbrev SameEnd (R : σ → τ → Prop) : EStateM.Result ε σ α → EStateM.Result ε τ α → Prop :=
  Coupled (fun a s b t => a = b ∧ R s t) (fun e s d t => e = d ∧ R s t)

/-- From related states, the actions come to the same end in related states. -/
def Lockstep (R : σ → τ → Prop) (x : EStateM ε σ α) (y : EStateM ε τ α) : Prop :=
  ∀ ⦃s t⦄, R s t → SameEnd R (x s) (y t)

namespace Lockstep

protected theorem pure (a : α) : Lockstep R (pure a : EStateM ε σ α) (pure a) :=
  fun _ _ h => .ok ⟨rfl, h⟩

protected theorem throw (e : ε) : Lockstep R (throw e : EStateM ε σ α) (throw e) :=
  fun _ _ h => .error ⟨rfl, h⟩

/-- Changes that keep the relation. -/
protected theorem modify {f : σ → σ} {g : τ → τ} (h : ∀ s t, R s t → R (f s) (g t)) :
    Lockstep R (modify f : EStateM ε σ Unit) (modify g) :=
  Mirrors.modify h

/-- One action after the other, where the second ones are compared only for
    results that the first one can have. -/
theorem bind_of_ok {x : EStateM ε σ α} {y : EStateM ε τ α} {f : α → EStateM ε σ β}
    {g : α → EStateM ε τ β} (h : Lockstep R x y)
    (hf : ∀ a s s', x s = .ok a s' → Lockstep R (f a) (g a)) :
    Lockstep R (x >>= f) (y >>= g) :=
  Mirrors.bind_of_ok h hf

protected theorem bind {x : EStateM ε σ α} {y : EStateM ε τ α} {f : α → EStateM ε σ β}
    {g : α → EStateM ε τ β} (h : Lockstep R x y) (hf : ∀ a, Lockstep R (f a) (g a)) :
    Lockstep R (x >>= f) (y >>= g) :=
  h.bind_of_ok fun a _ _ _ => hf a

end Lockstep

end Lockstep

end Tudlo
