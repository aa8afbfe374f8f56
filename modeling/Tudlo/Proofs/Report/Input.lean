import Tudlo.CommandLine
import Tudlo.Proofs.Input.Lines
import Tudlo.Proofs.Machine.Closure

/-!
# What a run sees of its input

A program gets to see the fields of the lines that it reads, and nothing else of them.
So lines with the same fields are as good as each other (`Report.run_eq_of_fields`), and
it cannot be seen how much of the line endings was taken away before.

* `Machine.ReadsAlike`: machines with input of the same fields;
* `Exec.readsAlike_closed`: whatever is executed on them comes to the same end;
* `Report.run_strippedLines`: a run on what is read from a stream.
-/

namespace Tudlo

/-! ### Machines with the same fields to read -/

/-- The machines differ in their input only, and the fields of its lines are the same. -/
def Machine.ReadsAlike (m n : Machine) : Prop :=
  ∃ input, n = { m with input } ∧ input.map inputFields = m.input.map inputFields

namespace Exec

variable {α : Type}

/-- A change that has nothing to do with the input. -/
theorem modify_readsAlike {f : Machine → Machine} (hi : ∀ m, (f m).input = m.input)
    (hf : ∀ m input, f { m with input } = { f m with input }) :
    Lockstep Machine.ReadsAlike (modify f : Exec Unit) (modify f) := by
  refine .modify ?_
  rintro m _ ⟨input, rfl, h⟩
  exact ⟨input, hf m input, by rw [hi, h]⟩

theorem onVariables_readsAlike (x : EStateM Fault Environment α) :
    Lockstep Machine.ReadsAlike (onVariables x) (onVariables x) := by
  rintro m _ ⟨input, rfl, h⟩
  cases hx : x m.env with
  | ok a env =>
    rw [onVariables_of_ok hx, onVariables_of_ok (m := { m with input }) hx]
    exact .ok ⟨rfl, input, rfl, h⟩
  | error f env =>
    rw [onVariables_of_error hx, onVariables_of_error (m := { m with input }) hx]
    exact .error ⟨rfl, input, rfl, h⟩

/-- The lines may differ, but the fields that are taken from them do not. -/
theorem nextFields_readsAlike (pos : Position) :
    Lockstep Machine.ReadsAlike (nextFields pos) (nextFields pos) := by
  rintro ⟨env, output, lines, trace⟩ _ ⟨input, rfl, h⟩
  cases lines with
  | nil =>
    obtain rfl : input = [] := List.map_eq_nil_iff.1 h
    exact .error ⟨rfl, [], rfl, rfl⟩
  | cons line lines =>
    obtain ⟨line', lines', rfl, hl, hr⟩ := List.map_eq_cons_iff.1 h
    exact .ok ⟨hl.symm, lines', rfl, hr⟩

theorem framed_readsAlike {x : Exec α} (h : Lockstep Machine.ReadsAlike x x) :
    Lockstep Machine.ReadsAlike (framed x) (framed x) := by
  rintro m _ ⟨input, rfl, hi⟩
  have hx : SameEnd Machine.ReadsAlike (x m.push) (x { m with input }.push) :=
    h ⟨input, rfl, hi⟩
  rw [framed, framed]
  generalize x m.push = r, x { m with input }.push = r' at hx ⊢
  cases hx with
  | ok hr =>
    obtain ⟨rfl, input', rfl, hi'⟩ := hr
    exact .ok ⟨rfl, input', rfl, hi'⟩
  | error hr =>
    obtain ⟨rfl, input', rfl, hi'⟩ := hr
    exact .error ⟨rfl, input', rfl, hi'⟩

/-- Nothing that is executed can tell lines with the same fields apart. -/
theorem readsAlike_closed : Closed fun _ x => Lockstep Machine.ReadsAlike x x where
  pure := .pure
  throw := .throw
  bind := .bind
  executing _ := modify_readsAlike (fun _ => rfl) fun _ _ => rfl
  received _ := modify_readsAlike (fun _ => rfl) fun _ _ => rfl
  onVariables _ := onVariables_readsAlike _
  declare _ _ _ := modify_readsAlike (fun _ => rfl) fun _ _ => rfl
  print _ := modify_readsAlike (fun _ => rfl) fun _ _ => rfl
  nextFields := nextFields_readsAlike
  framed := framed_readsAlike

end Exec

theorem Program.exec_readsAlike (limit : Nat) (program : Program) :
    Lockstep Machine.ReadsAlike (program.exec limit) (program.exec limit) := by
  intro m n hmn
  refine Program.exec_sameEnd ?_
    (Statement.execAll_of_closed Exec.readsAlike_closed limit program hmn)
  rintro m' _ ok ⟨input, rfl, h⟩
  exact ⟨input, rfl, h⟩

/-! ### Runs -/

namespace Report

/-- A run depends on the fields of the lines of input, and on nothing else of them. -/
theorem run_eq_of_fields (limit : Nat) (source : String) {input input' : List String}
    (h : input'.map inputFields = input.map inputFields) :
    run limit source input = run limit source input' := by
  rw [run, run]
  cases scan source with
  | error e => rfl
  | ok tokens =>
    dsimp only
    cases Program.parse tokens with
    | error e => rfl
    | ok program =>
      dsimp only
      let trace : Array Event := #[.scanned tokens.length, .parsed program.length]
      have hx : SameEnd Machine.ReadsAlike (program.exec limit { input, trace })
          (program.exec limit { input := input', trace }) :=
        program.exec_readsAlike limit ⟨input', rfl, h⟩
      -- Of the machines that are left, a report shows what they have in common.
      generalize program.exec limit { input, trace } = r,
        program.exec limit { input := input', trace } = r' at hx ⊢
      cases hx with
      | ok hr =>
        obtain ⟨rfl, _, rfl, -⟩ := hr
        rfl
      | @error halt _ _ _ hr =>
        obtain ⟨rfl, _, rfl, -⟩ := hr
        cases halt with
        | fault f => rfl
        | exhausted => rfl

/-- It cannot be seen how the endings of lines were taken away.

    Standard input is read line by line, each line up to and with its line feed, and all
    line feeds and carriage returns are taken from the end of what was read. A run on
    these lines is the run on the lines that only lack the line feed: the same output or
    the same failure, with the same output before it. -/
theorem run_strippedLines (limit : Nat) (source text : String) :
    inputLines text = strippedLines text ∧
    run limit source (strippedLines text) = run limit source (plainLines text) ∧
    ∀ logLevel content?,
      Invocation.outcome limit ⟨false, false, logLevel, source⟩ content? text.toUTF8 =
        (run limit source (plainLines text)).map fun report => .ran report.result := by
  have hl := inputLines_eq_strippedLines text
  have hr : run limit source (strippedLines text) = run limit source (plainLines text) :=
    run_eq_of_fields limit source (fields_plainLines text)
  refine ⟨hl, hr, fun logLevel content? => ?_⟩
  rw [← hr, ← hl, Invocation.outcome, readableText_toUTF8]
  rfl

end Report

end Tudlo
