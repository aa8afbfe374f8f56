import Tudlo.Proofs.Coupling
import Tudlo.Proofs.Machine.Frames
import Tudlo.Proofs.Machine.Layers

/-!
# What holds of every execution

Most properties of actions depend neither on the depth at which something happens
nor on the names that are written. For these it is enough to look at the actions
that statements are made of, and at the ways in which they are put together
(`Exec.Closed`). Such a property is then one of every execution
(`Statement.execAll_of_closed`).

Of a line of input only the fields are ever looked at, so that taking the fields
of the next line counts as one action (`Exec.nextFields`).
-/

namespace Tudlo

namespace Exec

/-- The property is one of all the actions that statements are made of, and it is
    kept by the ways in which actions are put together. -/
structure Closed (P : (α : Type) → Exec α → Prop) : Prop where
  pure {α : Type} (a : α) : P α (pure a)
  throw {α : Type} (halt : Halt) : P α (throw halt)
  bind {α β : Type} {x : Exec α} {f : α → Exec β} :
    P α x → (∀ a, P β (f a)) → P β (x >>= f)
  executing (pos : Position) : P Unit (record (.executing pos))
  received (count : Nat) : P Unit (record (.received count))
  /-- Nothing that is done to the variables changes the names or declared types. -/
  onVariables {α : Type} {x : EStateM Fault Environment α} :
    Keeps Environment.shape x → P α (onVariables x)
  declare (type : ScalarType) (names : List String) (value : Value) :
    P Unit (declare type names value)
  print (text : String) : P Unit (print text)
  nextFields (pos : Position) : P (List (List Char)) (nextFields pos)
  framed {α : Type} {x : Exec α} : P α x → P α (framed x)

/-- The property is the same at every depth, and whatever is written. -/
theorem Closed.layered {P : (α : Type) → Exec α → Prop} (h : Closed P) :
    Layered (fun _ => True) (fun _ _ x => Keeps Environment.shape x) (fun _ => P) where
  closed _ := {
    pure := .pure
    throw := .throw
    bind := Keeps.bind_of_ok
    resolve := Environment.resolve_keeps
    write _ := Environment.write_keeps _ }
  pure := h.pure
  throw := h.throw
  bind := h.bind
  executing := h.executing
  received := h.received
  onVariables := h.onVariables
  declare _ type value := h.declare type _ value
  print := h.print
  nextFields := h.nextFields
  framed := h.framed

end Exec

/-- A closed property holds of the execution of all statements. -/
theorem Statement.execAll_of_closed {P : (α : Type) → Exec α → Prop} (h : Exec.Closed P)
    (limit : Nat) (ss : List Statement) : P Unit (Statement.execAll limit ss) :=
  Statement.execAll_of_layered h.layered limit 0 ss fun _ _ => trivial

/-! ### Programs -/

/-- Two programs come to the same end when their statements do, as long as it does
    not matter to the relation that the end is recorded. -/
theorem Program.exec_sameEnd {R : Machine → Machine → Prop} {limit : Nat} {p q : Program}
    {m n : Machine}
    (hR : ∀ m n ok, R m n → R (m.emit (.finished m.output.utf8ByteSize ok))
      (n.emit (.finished n.output.utf8ByteSize ok)))
    (h : SameEnd R (Statement.execAll limit p m) (Statement.execAll limit q n)) :
    SameEnd R (p.exec limit m) (q.exec limit n) := by
  rw [Program.exec, Program.exec]
  generalize Statement.execAll limit p m = r, Statement.execAll limit q n = r' at h ⊢
  cases h with
  | ok h => exact .ok ⟨rfl, hR _ _ _ h.2⟩
  | @error halt _ _ _ h =>
    obtain ⟨rfl, hr⟩ := h
    cases halt with
    | fault f => exact .error ⟨rfl, hR _ _ _ hr⟩
    | exhausted => exact .error ⟨rfl, hr⟩

end Tudlo
