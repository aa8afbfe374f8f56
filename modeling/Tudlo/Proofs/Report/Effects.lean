import Tudlo.Proofs.Machine.Brackets
import Tudlo.Proofs.Machine.Demand
import Tudlo.Proofs.Machine.Visits
import Tudlo.Report

/-!
# What a run shows

A run shows its output and its events, and takes lines of input. All of this goes
back to the statements that are executed, one after the other:

* `Program.exec_effects`: output is added to by the statements that print, and input
  is taken by the statements that read, line by line and only as far as needed;
* `Report.run_events`: the events are those of the stages, with the record of the
  execution between them, where frames are well bracketed.
-/

namespace Tudlo

/-! ### Stages -/

/-- The machine that a program is executed on. -/
def Report.start (tokens : List Token) (program : Program) (input : List String) : Machine :=
  { input, trace := #[.scanned tokens.length, .parsed program.length] }

/-- There is a report when one of the stages fails or the program comes to its end. -/
theorem Report.run_eq_some {limit : Nat} {source : String} {input : List String}
    {report : Report (Except Failure String)} (h : Report.run limit source input = some report) :
    (∃ e, scan source = .error e ∧ report = ⟨[], .error (.lexical e)⟩) ∨
    ∃ tokens, scan source = .ok tokens ∧
      ((∃ e, Program.parse tokens = .error e ∧
        report = ⟨[.scanned tokens.length], .error (.grammatical e)⟩) ∨
      ∃ program m, Program.parse tokens = .ok program ∧
        ((program.exec limit (start tokens program input) = .ok () m ∧
          report = ⟨m.trace.toList, .ok m.output⟩) ∨
        ∃ f, program.exec limit (start tokens program input) = .error (.fault f) m ∧
          report = ⟨(m.emit (.faulted f.message)).trace.toList, .error (.runtime f m.output)⟩)) := by
  rw [Report.run] at h
  split at h
  · rename_i e hs
    exact .inl ⟨e, hs, (Option.some.inj h).symm⟩
  · rename_i tokens hs
    refine .inr ⟨tokens, hs, ?_⟩
    dsimp only at h
    split at h
    · rename_i e hp
      exact .inl ⟨e, hp, (Option.some.inj h).symm⟩
    · rename_i program hp
      split at h
      · rename_i u m hx
        exact .inr ⟨program, m, hp, .inl ⟨hx, (Option.some.inj h).symm⟩⟩
      · rename_i f m hx
        exact .inr ⟨program, m, hp, .inr ⟨f, hx, (Option.some.inj h).symm⟩⟩
      · cases h

/-! ### Output and input -/

/-- The states that two runs are compared by are those that they leave. -/
theorem SameEnd.ofStateAfter {ε σ τ α : Type} {R : σ → τ → Prop} {x : EStateM ε σ α}
    {y : EStateM ε τ α} {s : σ} {t : τ} (h : SameEnd R (x s) (y t)) :
    SameEnd (fun s' t' => s' = stateAfter x s ∧ R s' t') (x s) (y t) := by
  rw [stateAfter]
  generalize x s = r, y t = r' at h ⊢
  cases h with
  | ok h => exact .ok ⟨h.1, rfl, h.2⟩
  | error h => exact .error ⟨h.1, rfl, h.2⟩

/-- The visits of a program account for its output. -/
theorem Program.output_exec (limit : Nat) (program : Program) (m : Machine) :
    (stateAfter (program.exec limit) m).output =
      m.output ++ String.join ((program.visits limit m).filterMap Visit.printed?) := by
  rw [Program.view_exec Machine.output fun _ _ => rfl]
  exact (Statement.execAll_tracked limit program m).output

/-- And for the lines that it takes. -/
theorem Program.input_exec (limit : Nat) (program : Program) (m : Machine) :
    m.input = (program.visits limit m).filterMap Visit.line? ++
      (stateAfter (program.exec limit) m).input := by
  rw [Program.view_exec Machine.input fun _ _ => rfl]
  exact (Statement.execAll_tracked limit program m).input

/-- Statements are fed when their program is not stopped for want of input. -/
theorem Program.fed_of_ne {limit : Nat} {program : Program} {m : Machine}
    (h : ∀ pos m', program.exec limit m ≠ .error (.fault ⟨.inputMissing, pos⟩) m') :
    Exec.Fed (Statement.execAll limit program) m := by
  intro halt m' hx
  cases halt with
  | exhausted => rfl
  | fault f =>
    obtain ⟨cause, pos⟩ := f
    refine beq_false_of_ne fun hc => ?_
    obtain rfl : cause = .inputMissing := hc
    exact h pos _ (Program.exec_of_fault hx)

/-- Output is added to and input is read on demand.

    A program adds a text to the output that does not depend on what was there before,
    and the text is what the statements that print have printed. Expressions have no part
    in it. From the input the program takes the lines that statements which read have found,
    and unless it was stopped for want of input, it does the same when other lines follow.
    So the output before a fault is what was printed before it. -/
theorem Program.exec_effects (limit : Nat) (program : Program) (m : Machine) :
    (∃ text, (stateAfter (program.exec limit) m).output = m.output ++ text ∧
      ∀ output, SameEnd (fun m' n' => n'.env = m'.env ∧ n'.output = output ++ text ∧
          n'.input = m'.input)
        (program.exec limit m) (program.exec limit { m with output })) ∧
    (stateAfter (program.exec limit) m).output =
      m.output ++ String.join ((program.visits limit m).filterMap Visit.printed?) ∧
    (∀ e : Expr, (stateAfter (Exec.eval e) m).output = m.output ∧
      (stateAfter (Exec.eval e) m).input = m.input) ∧
    m.input = (program.visits limit m).filterMap Visit.line? ++
      (stateAfter (program.exec limit) m).input ∧
    ((∀ pos m', program.exec limit m ≠ .error (.fault ⟨.inputMissing, pos⟩) m') →
      ∀ rest, SameEnd (fun m' n' => n'.env = m'.env ∧ n'.output = m'.output ∧ n'.input = rest)
        (program.exec limit m) (program.exec limit { m with
          input := (program.visits limit m).filterMap Visit.line? ++ rest })) ∧
    ∀ source input f output,
      (Report.run limit source input).map Report.result = some (.error (.runtime f output)) →
      ∃ tokens program, scan source = .ok tokens ∧ Program.parse tokens = .ok program ∧
        output = String.join ((program.visits limit (Report.start tokens program input)).filterMap
          Visit.printed?) := by
  obtain ⟨taken, text, hin, hout, hx⟩ := Program.exec_supplied limit program m
  have hlines := Program.input_exec limit program m
  obtain rfl : taken = (program.visits limit m).filterMap Visit.line? :=
    List.append_cancel_right (hin.symm.trans hlines)
  refine ⟨⟨text, hout, fun output => ?_⟩, Program.output_exec limit program m, fun e => ?_, hlines,
    fun hw rest => ?_, fun source input f output h => ?_⟩
  · have hs := (hx output _ (.inr rfl)).ofStateAfter
    rw [← hlines] at hs
    refine hs.mono ?_ ?_
    · rintro _ m' _ n' ⟨rfl, rfl, he, ho, hi⟩
      exact ⟨rfl, he, ho, hi⟩
    · rintro _ m' _ n' ⟨rfl, rfl, he, ho, hi⟩
      exact ⟨rfl, he, ho, hi⟩
  · have he := Exec.eval_keeps_outside e m
    simp only [Machine.outside, Prod.mk.injEq] at he
    exact ⟨he.1, he.2.1⟩
  · refine (hx m.output rest (.inl (Program.fed_of_ne hw))).ofStateAfter.mono ?_ ?_
    · rintro _ m' _ n' ⟨rfl, rfl, he, ho, hi⟩
      exact ⟨rfl, he, ho.trans hout.symm, hi⟩
    · rintro _ m' _ n' ⟨rfl, rfl, he, ho, hi⟩
      exact ⟨rfl, he, ho.trans hout.symm, hi⟩
  · obtain ⟨report, hr, hres⟩ := Option.map_eq_some_iff.1 h
    rcases Report.run_eq_some hr with
      ⟨e, -, rfl⟩ | ⟨tokens, hs, ⟨e, -, rfl⟩ | ⟨program, m', hp, ⟨-, rfl⟩ | ⟨f', hx', rfl⟩⟩⟩
    · cases hres
    · cases hres
    · cases hres
    · cases hres
      have ho := Program.output_exec limit program (Report.start tokens program input)
      rw [stateAfter_of_error hx'] at ho
      exact ⟨tokens, program, hs, hp, ho.trans String.empty_append⟩

/-- A program that reads a number twice, and divides by the second one. -/
def dividing : Program :=
  [.declare .integer ["x"] none ⟨2, 7⟩,
   .read ["x"] ⟨3, 1⟩,
   .print (.binary .join (.var "x" ⟨4, 10⟩) (.literal (.text "$") ⟨4, 14⟩) ⟨4, 12⟩) ⟨4, 1⟩,
   .read ["x"] ⟨5, 1⟩,
   .print (.binary .div (.literal (.integer 10) ⟨6, 10⟩) (.var "x" ⟨6, 15⟩) ⟨6, 13⟩) ⟨6, 1⟩]

/-- The text of the program. -/
def dividingText : String :=
  "SUGOD\nMUGNA NUMERO x\nDAWAT: x\nIPAKITA: x & $\nDAWAT: x\nIPAKITA: 10 / x\nKATAPUSAN"

/-- When the second number is zero, there is a fault. The third line does not matter to it,
    and what was printed is kept. -/
theorem Program.exec_effects_dividing :
    (∀ pos m', dividing.exec 0 { input := ["7", "0", "9"] } ≠
      .error (.fault ⟨.inputMissing, pos⟩) m') ∧
    (∀ rest, SameEnd (fun m' n' => n'.env = m'.env ∧ n'.output = m'.output ∧ n'.input = rest)
      (dividing.exec 0 { input := ["7", "0", "9"] })
      (dividing.exec 0 { input := ["7", "0"] ++ rest })) ∧
    (Report.run 0 dividingText ["7", "0", "9"]).map Report.result =
      some (.error (.runtime ⟨.divisionByZero, ⟨6, 13⟩⟩ "7\n")) ∧
    ∃ tokens program, scan dividingText = .ok tokens ∧ Program.parse tokens = .ok program ∧
      "7\n" = String.join ((program.visits 0
        (Report.start tokens program ["7", "0", "9"])).filterMap Visit.printed?) := by
  obtain ⟨-, -, -, -, hrest, hreport⟩ :=
    Program.exec_effects 0 dividing { input := ["7", "0", "9"] }
  have hx : ∃ m', dividing.exec 0 { input := ["7", "0", "9"] } =
      .error (.fault ⟨.divisionByZero, ⟨6, 13⟩⟩) m' := ⟨_, rfl⟩
  have hw : ∀ pos m', dividing.exec 0 { input := ["7", "0", "9"] } ≠
      .error (.fault ⟨.inputMissing, pos⟩) m' := by
    intro pos m' he
    obtain ⟨m'', hx⟩ := hx
    rw [hx] at he
    cases he
  have hr : (Report.run 0 dividingText ["7", "0", "9"]).map Report.result =
      some (.error (.runtime ⟨.divisionByZero, ⟨6, 13⟩⟩ "7\n")) := by decide +kernel
  exact ⟨hw, hrest hw, hr, hreport _ _ _ _ hr⟩

/-! ### Events -/

/-- What the statements of a program record is well bracketed, and has an event for
    every visit and one for every visit that reads with success. -/
theorem Program.record_execAll (limit : Nat) (program : Program) (m : Machine) :
    ∃ events, (stateAfter (Statement.execAll limit program) m).trace.toList =
        m.trace.toList ++ events ∧
      Brackets m.env.depth events ∧
      events.filterMap Event.executed? = (program.visits limit m).map (fun v => v.statement.pos) ∧
      events.countP Event.isReceived = (program.visits limit m).countP Visit.receives := by
  obtain ⟨-, events, ht, hb⟩ := Statement.execAll_of_closed Exec.bracketed_closed limit program m
  have ha := Statement.execAll_tracked limit program m
  refine ⟨events, ht, hb, ?_, ?_⟩
  · have he := ha.executed
    rw [ht, List.filterMap_append] at he
    exact List.append_cancel_left he
  · have hr := ha.received
    rw [ht, List.countP_append] at hr
    exact Nat.add_left_cancel hr

/-- The events at the end of a run. -/
def Report.closing : Except Failure String → List Event
  | .ok output => [.finished output.utf8ByteSize true]
  | .error failure => [.finished failure.output.utf8ByteSize false, .faulted failure.message]

/-- The events of a run are well bracketed and true.

    When a text is a program and its run comes to an end, the events are those of the
    two stages before the run, then those of the execution, and then those of its end.
    The events of the execution are well bracketed from the outermost frame on. They name
    the statements that are executed, and tell of every one that reads with success. -/
theorem Report.run_events {limit : Nat} {source : String} {input : List String}
    {tokens : List Token} {program : Program} {report : Report (Except Failure String)}
    (hs : scan source = .ok tokens) (hp : Program.parse tokens = .ok program)
    (h : Report.run limit source input = some report) :
    ∃ events, report.events = [.scanned tokens.length, .parsed program.length] ++ events ++
        closing report.result ∧
      ((∃ output, report.result = .ok output) ∨
        ∃ f output, report.result = .error (.runtime f output)) ∧
      Brackets 1 events ∧
      events.filterMap Event.executed? = (program.visits limit (start tokens program input)).map
        (fun v => v.statement.pos) ∧
      events.countP Event.isReceived =
        (program.visits limit (start tokens program input)).countP Visit.receives := by
  obtain ⟨events, ht, hevents⟩ := Program.record_execAll limit program (start tokens program input)
  refine ⟨events, and_assoc.1 ⟨?_, hevents⟩⟩
  rcases Report.run_eq_some h with ⟨e, hs', -⟩ | ⟨tokens', hs', h⟩
  · rw [hs] at hs'
    cases hs'
  · obtain rfl : tokens' = tokens := Except.ok.inj (hs'.symm.trans hs)
    rcases h with ⟨e, hp', -⟩ | ⟨program', m, hp', h⟩
    · rw [hp] at hp'
      cases hp'
    · obtain rfl : program' = program := Except.ok.inj (hp'.symm.trans hp)
      rcases h with ⟨hx, rfl⟩ | ⟨f, hx, rfl⟩
      · obtain ⟨m₁, hx₁, rfl⟩ := Program.exec_eq_ok hx
        rw [stateAfter_of_ok hx₁] at ht
        refine ⟨?_, .inl ⟨_, rfl⟩⟩
        simp [Machine.emit, ht, closing, start]
      · obtain ⟨m₁, hx₁, rfl⟩ := Program.exec_eq_fault hx
        rw [stateAfter_of_error hx₁] at ht
        refine ⟨?_, .inr ⟨_, _, rfl⟩⟩
        simp [Machine.emit, ht, closing, start, Failure.output, Failure.message]

/-- A program that divides by numbers it reads, in a block inside of a loop. -/
def dividingRounds : String :=
  "SUGOD\nMUGNA NUMERO n\nALANG SA (MUGNA NUMERO i = 0, i < 3, i = i + 1) \x7b\n" ++
  "DAWAT: n\nPUNDOK \x7b IPAKITA: 6 / n \x7d\n\x7d\nKATAPUSAN"

/-- When the second of the numbers is zero, the run ends inside of the block, and the
    events are still well bracketed. -/
theorem Report.run_events_dividingRounds : ∃ tokens program report,
    scan dividingRounds = .ok tokens ∧ Program.parse tokens = .ok program ∧
    Report.run 2 dividingRounds ["3", "0"] = some report ∧
    report.result = .error (.runtime ⟨.divisionByZero, ⟨5, 21⟩⟩ "2") ∧
    ∃ events, report.events = [.scanned tokens.length, .parsed program.length] ++ events ++
        closing report.result ∧
      ((∃ output, report.result = .ok output) ∨
        ∃ f output, report.result = .error (.runtime f output)) ∧
      Brackets 1 events ∧
      events.filterMap Event.executed? = (program.visits 2 (start tokens program ["3", "0"])).map
        (fun v => v.statement.pos) ∧
      events.countP Event.isReceived =
        (program.visits 2 (start tokens program ["3", "0"])).countP Visit.receives := by
  have h : (Report.run 2 dividingRounds ["3", "0"]).map Report.result =
      some (.error (.runtime ⟨.divisionByZero, ⟨5, 21⟩⟩ "2")) := by decide +kernel
  obtain ⟨report, hr, hres⟩ := Option.map_eq_some_iff.1 h
  rcases Report.run_eq_some hr with ⟨e, -, rfl⟩ | ⟨tokens, hs, ⟨e, -, rfl⟩ | ⟨program, m, hp, -⟩⟩
  · cases hres
  · cases hres
  · exact ⟨tokens, program, report, hs, hp, hr, hres, Report.run_events hs hp hr⟩

end Tudlo
