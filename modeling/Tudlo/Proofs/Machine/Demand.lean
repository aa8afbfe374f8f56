import Tudlo.Proofs.Coupling
import Tudlo.Proofs.Machine.Closure

/-!
# Output is added to, and input is read on demand

A running program cannot see what was printed before, and of its input it sees
the lines that it has taken and no others. So whatever it does, it takes some
lines off the front of the input and adds some text to the output, and it does
the same on a machine that has printed something else, or where other lines
follow those that are taken (`Exec.OnDemand`). There is one exception: an action
that is stopped for want of input has seen that no lines follow.

* `Exec.onDemand_closed`: this is a property of every execution;
* `Program.exec_supplied`: what it says of programs.
-/

namespace Tudlo

section MapState

variable {ε σ τ α : Type}

/-- The same end with another state. -/
def mapState (f : σ → τ) : EStateM.Result ε σ α → EStateM.Result ε τ α
  | .ok a s => .ok a (f s)
  | .error e s => .error e (f s)

theorem sameEnd_mapState (f : σ → τ) (r : EStateM.Result ε σ α) :
    SameEnd (fun s t => t = f s) r (mapState f r) := by
  cases r with
  | ok a s => exact .ok ⟨rfl, rfl⟩
  | error e s => exact .error ⟨rfl, rfl⟩

end MapState

/-- The machine with other output and input. -/
def Machine.supplied (m : Machine) (output : String) (input : List String) : Machine :=
  { m with output, input }

/-- Whether this is for want of input. -/
def Halt.wantsInput : Halt → Bool
  | .fault f => f.cause == .inputMissing
  | .exhausted => false

namespace Exec

variable {α β : Type}

/-- The action is not stopped for want of input. -/
def Fed (x : Exec α) (m : Machine) : Prop :=
  ∀ halt m', x m = .error halt m' → halt.wantsInput = false

section Fed

variable {x : Exec α} {m m' : Machine}

theorem fed_of_ok {a : α} (h : x m = .ok a m') : Fed x m := by
  intro halt m'' h'
  rw [h] at h'
  cases h'

theorem fed_iff_of_error {halt : Halt} (h : x m = .error halt m') :
    Fed x m ↔ halt.wantsInput = false := by
  refine ⟨fun hf => hf halt m' h, fun hw halt' m'' h' => ?_⟩
  rw [h] at h'
  cases h'
  exact hw

theorem fed_bind_of_ok {f : α → Exec β} {a : α} (h : x m = .ok a m') :
    Fed (x >>= f) m ↔ Fed (f a) m' := by
  rw [Fed, Fed, bind_apply_of_ok h]

end Fed

/-- The action takes lines off the front of the input and adds text to the output,
    and it does so whatever the output is and whatever lines follow. -/
def OnDemand (x : Exec α) : Prop :=
  ∀ m, ∃ taken text, m.input = taken ++ (stateAfter x m).input ∧
    ∀ output rest, Fed x m ∨ rest = (stateAfter x m).input →
      x (m.supplied output (taken ++ rest)) =
        mapState (fun m' => m'.supplied (output ++ text) rest) (x m)

/-! ### Single actions -/

/-- An action that takes no lines. -/
theorem onDemand_of_idle {x : Exec α} (text : String)
    (hi : ∀ m, (stateAfter x m).input = m.input)
    (hx : ∀ m output rest, x (m.supplied output rest) =
      mapState (fun m' => m'.supplied (output ++ text) rest) (x m)) : OnDemand x :=
  fun m => ⟨[], text, (hi m).symm, fun output rest _ => hx m output rest⟩

/-- An action that takes no lines and prints nothing. -/
theorem onDemand_of_silent {x : Exec α} (hi : ∀ m, (stateAfter x m).input = m.input)
    (hx : ∀ m output rest, x (m.supplied output rest) =
      mapState (fun m' => m'.supplied output rest) (x m)) : OnDemand x := by
  refine onDemand_of_idle "" hi fun m output rest => ?_
  rw [String.append_empty]
  exact hx m output rest

theorem onDemand_pure (a : α) : OnDemand (pure a : Exec α) :=
  onDemand_of_silent (fun _ => rfl) fun _ _ _ => rfl

theorem onDemand_throw (halt : Halt) : OnDemand (throw halt : Exec α) :=
  onDemand_of_silent (fun _ => rfl) fun _ _ _ => rfl

theorem onDemand_record (e : Event) : OnDemand (record e) :=
  onDemand_of_silent (fun _ => rfl) fun _ _ _ => rfl

theorem onDemand_declare (type : ScalarType) (names : List String) (value : Value) :
    OnDemand (declare type names value) :=
  onDemand_of_silent (fun _ => rfl) fun _ _ _ => rfl

theorem onDemand_onVariables (x : EStateM Fault Environment α) : OnDemand (onVariables x) := by
  refine onDemand_of_silent (fun m => ?_) fun m output rest => ?_
  · exact congrArg (fun view => view.2.1) (onVariables_keeps_outside x m)
  · cases h : x m.env with
    | ok a env =>
      rw [onVariables_of_ok h]
      exact onVariables_of_ok (m := m.supplied output rest) h
    | error f env =>
      rw [onVariables_of_error h]
      exact onVariables_of_error (m := m.supplied output rest) h

theorem onDemand_print (text : String) : OnDemand (print text) :=
  onDemand_of_idle text (fun _ => rfl) fun _ _ _ => rfl

/-- The next line is taken when there is one. Only when there is none, it matters
    that none follows. -/
theorem onDemand_nextFields (pos : Position) : OnDemand (nextFields pos) := by
  rintro ⟨env, printed, input, trace⟩
  cases input with
  | cons line lines =>
    refine ⟨[line], "", rfl, fun output rest _ => ?_⟩
    rw [String.append_empty]
    rfl
  | nil =>
    refine ⟨[], "", rfl, fun output rest h => ?_⟩
    obtain rfl : rest = [] := by
      rcases h with h | h
      · have hw := h (.fault ⟨.inputMissing, pos⟩) ⟨env, printed, [], trace⟩ rfl
        cases hw
      · exact h
    rw [String.append_empty]
    rfl

/-! ### Actions put together -/

theorem OnDemand.bind {x : Exec α} {f : α → Exec β} (hx : OnDemand x)
    (hf : ∀ a, OnDemand (f a)) : OnDemand (x >>= f) := by
  intro m
  obtain ⟨taken, text, hin, hx⟩ := hx m
  cases h : x m with
  | error halt m₁ =>
    rw [stateAfter_of_error h] at hin hx
    rw [stateAfter_bind_of_error h]
    refine ⟨taken, text, hin, fun output rest hr => ?_⟩
    rw [fed_iff_of_error (bind_apply_of_error h), ← fed_iff_of_error h] at hr
    have he := hx output rest hr
    rw [h] at he
    rw [bind_apply_of_error h]
    exact bind_apply_of_error he
  | ok a m₁ =>
    rw [stateAfter_of_ok h] at hin hx
    obtain ⟨taken', text', hin', hf⟩ := hf a m₁
    rw [stateAfter_bind_of_ok h]
    refine ⟨taken ++ taken', text ++ text', ?_, fun output rest hr => ?_⟩
    · rw [hin, hin', List.append_assoc]
    · -- For the first action, what the second one takes belongs to what follows.
      have ho := hx output (taken' ++ rest) (.inl (fed_of_ok h))
      rw [h] at ho
      rw [fed_bind_of_ok h] at hr
      rw [List.append_assoc, bind_apply_of_ok ho, bind_apply_of_ok h, ← String.append_assoc]
      exact hf (output ++ text) rest hr

theorem OnDemand.framed {x : Exec α} (hx : OnDemand x) : OnDemand (framed x) := by
  intro m
  obtain ⟨taken, text, hin, hx⟩ := hx m.push
  cases h : x m.push with
  | ok a m' =>
    rw [stateAfter_of_ok h] at hin hx
    rw [stateAfter_of_ok (framed_of_ok h)]
    refine ⟨taken, text, hin, fun output rest _ => ?_⟩
    have ho := hx output rest (.inl (fed_of_ok h))
    rw [h] at ho
    rw [framed_of_ok h]
    exact framed_of_ok (m := m.supplied output (taken ++ rest)) ho
  | error halt m' =>
    rw [stateAfter_of_error h] at hin hx
    rw [stateAfter_of_error (framed_of_error h)]
    refine ⟨taken, text, hin, fun output rest hr => ?_⟩
    rw [fed_iff_of_error (framed_of_error h), ← fed_iff_of_error h] at hr
    have he := hx output rest hr
    rw [h] at he
    rw [framed_of_error h]
    exact framed_of_error (m := m.supplied output (taken ++ rest)) he

/-- Every execution is on demand. -/
theorem onDemand_closed : Closed fun _ x => OnDemand x where
  pure := onDemand_pure
  throw := onDemand_throw
  bind := OnDemand.bind
  executing _ := onDemand_record _
  received _ := onDemand_record _
  onVariables _ := onDemand_onVariables _
  declare := onDemand_declare
  print := onDemand_print
  nextFields := onDemand_nextFields
  framed := OnDemand.framed

/-- The text that an action on demand adds is what makes the output longer. -/
theorem output_of_supplied {x : Exec α} {m : Machine} {taken : List String} {text : String}
    (hin : m.input = taken ++ (stateAfter x m).input)
    (h : x (m.supplied m.output (taken ++ (stateAfter x m).input)) =
      mapState (fun m' => m'.supplied (m.output ++ text) (stateAfter x m).input) (x m)) :
    (stateAfter x m).output = m.output ++ text := by
  have hm : m.supplied m.output (taken ++ (stateAfter x m).input) = m := by
    rw [← hin]
    rfl
  rw [hm] at h
  have hs : stateAfter x m = (stateAfter x m).supplied (m.output ++ text) (stateAfter x m).input := by
    cases hx : x m with
    | ok a m' =>
      rw [stateAfter_of_ok hx] at h ⊢
      rw [hx] at h
      exact (EStateM.Result.ok.inj h).2
    | error halt m' =>
      rw [stateAfter_of_error hx] at h ⊢
      rw [hx] at h
      exact (EStateM.Result.error.inj h).2
  exact congrArg Machine.output hs

end Exec

/-- A program adds text to the output and takes lines off the front of the input, and
    comes to the same end whatever the output is and whatever lines follow. -/
theorem Program.exec_supplied (limit : Nat) (program : Program) (m : Machine) :
    ∃ taken text, m.input = taken ++ (stateAfter (program.exec limit) m).input ∧
      (stateAfter (program.exec limit) m).output = m.output ++ text ∧
      ∀ output rest, Exec.Fed (Statement.execAll limit program) m ∨
          rest = (stateAfter (program.exec limit) m).input →
        SameEnd (fun m' n' => n'.env = m'.env ∧ n'.output = output ++ text ∧ n'.input = rest)
          (program.exec limit m) (program.exec limit (m.supplied output (taken ++ rest))) := by
  have hi := Program.view_exec Machine.input (fun _ _ => rfl) limit program m
  have ho := Program.view_exec Machine.output (fun _ _ => rfl) limit program m
  rw [hi, ho]
  obtain ⟨taken, text, hin, hx⟩ := Statement.execAll_of_closed Exec.onDemand_closed limit program m
  refine ⟨taken, text, hin, Exec.output_of_supplied hin (hx _ _ (.inr rfl)), ?_⟩
  intro output rest hr
  refine Program.exec_sameEnd (fun _ _ _ h => h) ?_
  rw [hx output rest hr]
  refine (sameEnd_mapState _ _).mono ?_ ?_
  · rintro _ m' _ _ ⟨rfl, rfl⟩
    exact ⟨rfl, rfl, rfl, rfl⟩
  · rintro _ m' _ _ ⟨rfl, rfl⟩
    exact ⟨rfl, rfl, rfl, rfl⟩

end Tudlo
