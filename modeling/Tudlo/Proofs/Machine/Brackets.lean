import Tudlo.Proofs.Machine.Closure

/-!
# Frames on record

A frame that is added and the same frame when it is taken away are both on record,
with the number of frames that there are then. What is recorded in between is of
one level more. So the record of an execution is a word of brackets, where every
bracket shows its depth (`Brackets`), and as frames are taken away on every way
out, this is so whatever the end of the execution is.

* `Exec.bracketed_closed`: what every execution records is well bracketed.
-/

namespace Tudlo

/-- The events are well bracketed, with `depth` frames at the start and at the end
    and never fewer. -/
inductive Brackets : (depth : Nat) → List Event → Prop
  | nil (depth : Nat) : Brackets depth []
  | executing {depth : Nat} (pos : Position) {events : List Event} :
    Brackets depth events → Brackets depth (.executing pos :: events)
  | received {depth : Nat} (count : Nat) {events : List Event} :
    Brackets depth events → Brackets depth (.received count :: events)
  /-- A frame with what happens in it, and what comes after it. -/
  | frame {depth : Nat} {inside events : List Event} :
    Brackets (depth + 1) inside → Brackets depth events →
      Brackets depth (.pushed (depth + 1) :: (inside ++ .popped depth :: events))

theorem Brackets.append {depth : Nat} {events later : List Event} (h : Brackets depth events)
    (hl : Brackets depth later) : Brackets depth (events ++ later) := by
  induction h with
  | nil => exact hl
  | executing pos _ ih => exact .executing pos (ih hl)
  | received count _ ih => exact .received count (ih hl)
  | frame hi _ _ ih =>
    rw [List.cons_append, List.append_assoc, List.cons_append]
    exact .frame hi (ih hl)

/-- A frame that was added is there to be taken away. -/
theorem Environment.depth_pop_of_push {env env' : Environment} (h : env'.depth = env.push.depth) :
    env'.pop.depth = env.depth := by
  obtain ⟨inner, outer⟩ := env'
  cases outer with
  | nil => cases h
  | cons f fs => exact Nat.succ.inj h

/-- The machine `m'` has the frames of `m`, and more on record, which is well
    bracketed. -/
def Machine.Bracketed (m m' : Machine) : Prop :=
  m'.env.depth = m.env.depth ∧
    ∃ events, m'.trace.toList = m.trace.toList ++ events ∧ Brackets m.env.depth events

namespace Machine.Bracketed

variable {m m' m'' : Machine}

theorem of_eq (he : m'.env.depth = m.env.depth) (ht : m'.trace = m.trace) : m.Bracketed m' :=
  ⟨he, [], by rw [ht, List.append_nil], .nil _⟩

theorem trans (h : m.Bracketed m') (h' : m'.Bracketed m'') : m.Bracketed m'' := by
  obtain ⟨hd, events, ht, hb⟩ := h
  obtain ⟨hd', later, ht', hb'⟩ := h'
  rw [hd] at hb'
  exact ⟨hd'.trans hd, events ++ later, by rw [ht', ht, List.append_assoc], hb.append hb'⟩

/-- What is well bracketed inside of a frame is so together with the frame. -/
theorem framed (h : m.push.Bracketed m') : m.Bracketed m'.pop := by
  obtain ⟨hd, events, ht, hb⟩ := h
  have hpop : m'.env.pop.depth = m.env.depth := Environment.depth_pop_of_push hd
  have hframe : Brackets m.env.depth (.pushed (m.env.depth + 1) :: (events ++ [.popped m.env.depth])) :=
    .frame hb (.nil m.env.depth)
  refine ⟨hpop, _, ?_, hframe⟩
  have hpush : m.push.trace.toList = m.trace.toList ++ [.pushed (m.env.depth + 1)] :=
    Array.toList_push
  calc m'.pop.trace.toList
      = m'.trace.toList ++ [Event.popped m'.env.pop.depth] := Array.toList_push
    _ = m.trace.toList ++ [.pushed (m.env.depth + 1)] ++ events ++ [.popped m.env.depth] := by
      rw [ht, hpush, hpop]
    _ = m.trace.toList ++ .pushed (m.env.depth + 1) :: (events ++ [.popped m.env.depth]) := by
      simp

end Machine.Bracketed

namespace Exec

variable {α β : Type}

/-- What the action records is well bracketed, from every machine. -/
def Bracketed (x : Exec α) : Prop :=
  ∀ m : Machine, m.Bracketed (stateAfter x m)

theorem Bracketed.bind {x : Exec α} {f : α → Exec β} (hx : Bracketed x)
    (hf : ∀ a, Bracketed (f a)) : Bracketed (x >>= f) := by
  intro m
  have hm := hx m
  cases h : x m with
  | ok a m' =>
    rw [stateAfter_of_ok h] at hm
    rw [stateAfter_bind_of_ok h]
    exact hm.trans (hf a m')
  | error halt m' =>
    rw [stateAfter_of_error h] at hm
    rw [stateAfter_bind_of_error h]
    exact hm

theorem Bracketed.framed {x : Exec α} (hx : Bracketed x) : Bracketed (framed x) := by
  intro m
  rw [stateAfter_framed]
  exact (hx m.push).framed

theorem bracketed_onVariables {x : EStateM Fault Environment α} (h : Keeps Environment.shape x) :
    Bracketed (onVariables x) := by
  intro m
  have hs : (stateAfter (onVariables x) m).env.shape = m.env.shape := Keeps.onVariables h m
  have ho := onVariables_keeps_outside x m
  simp only [Machine.outside, Prod.mk.injEq] at ho
  exact .of_eq (Environment.depth_of_outerShape (Environment.shape_eq_iff.1 hs).2) ho.2.2

/-- What every execution records is well bracketed. -/
theorem bracketed_closed : Closed fun _ x => Bracketed x where
  pure _ _ := .of_eq rfl rfl
  throw _ _ := .of_eq rfl rfl
  bind := .bind
  executing pos m := ⟨rfl, [.executing pos], Array.toList_push, .executing pos (.nil _)⟩
  received count m := ⟨rfl, [.received count], Array.toList_push, .received count (.nil _)⟩
  onVariables := bracketed_onVariables
  declare type names value m :=
    .of_eq (Environment.depth_of_outerShape (declare_keeps type names value m)) rfl
  print _ _ := .of_eq rfl rfl
  nextFields pos := by
    rintro ⟨env, output, input, trace⟩
    cases input with
    | nil => exact .of_eq rfl rfl
    | cons line rest => exact .of_eq rfl rfl
  framed := .framed

end Exec

end Tudlo
