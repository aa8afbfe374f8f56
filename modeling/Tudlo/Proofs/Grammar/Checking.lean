import Tudlo.Proofs.Grammar.Soundness.Statement
import Tudlo.Report

/-!
# Checking finds what reading finds

A program is read by a rule that stops at the first error, and checked by a
loop that collects all of them. The two visit the same declarations up to the
first error: as long as declarations succeed they leave the same tokens behind,
and both give up together. So the first error of the check is the error of the
reading, whatever the tokens are, also when they end too early.

* `Parse.error?`: the error that a rule fails with;
* `Parse.length_lt_of_declaration`: a declaration consumes a token, which keeps
  the loop within its budget;
* `Parse.head?_errorsWithin`: the two loops side by side;
* `Program.check_agrees`: programs, and source texts that are run or checked.
-/

namespace Tudlo

/-! ### The error of a rule -/

namespace Parse

variable {α β : Type} {ts : List Token}

/-- The error that the rule fails with, if it does. -/
def error? (rule : Parse α) (ts : List Token) : Option SyntaxError :=
  match rule ts with
  | .ok _ _ => none
  | .error e _ => some e

theorem error?_of_ok {x : Parse α} {a : α} {rest : List Token} (h : x ts = .ok a rest) :
    error? x ts = none := by
  rw [error?, h]

theorem error?_of_error {x : Parse α} {e : SyntaxError} {rest : List Token}
    (h : x ts = .error e rest) : error? x ts = some e := by
  rw [error?, h]

/-- After a step that succeeds, the error is that of the next one. -/
theorem error?_bind_of_ok {x : Parse α} {f : α → Parse β} {a : α} {mid : List Token}
    (h : x ts = .ok a mid) : error? (x >>= f) ts = error? (f a) mid := by
  rw [error?, bind_of_ok h, error?]

/-- The error of a step that fails is that of all steps. -/
theorem error?_bind_of_error {x : Parse α} (f : α → Parse β) {e : SyntaxError}
    {mid : List Token} (h : x ts = .error e mid) : error? (x >>= f) ts = some e :=
  error?_of_error (bind_of_error h)

/-- What is made of the result does not matter to the error. -/
theorem error?_bind_pure (x : Parse α) (f : α → β) :
    error? (x >>= fun a => pure (f a)) ts = error? x ts := by
  cases h : x ts with
  | ok a mid =>
    rw [error?_bind_of_ok h, error?_of_ok h]
    rfl
  | error e mid => rw [error?_bind_of_error _ h, error?_of_error h]

end Parse

/-! ### Declarations consume tokens -/

theorem Phrase.Derives.block_ne_nil {b : Block} {us : List Token}
    (h : Phrase.Derives (.block b) us) : us ≠ [] := by
  cases h <;> exact List.cons_ne_nil _ _

theorem Phrase.Derives.declaration_ne_nil {s : Statement} {us : List Token}
    (h : Phrase.Derives (.declaration s) us) : us ≠ [] := by
  cases h with
  | announced => exact List.cons_ne_nil _ _
  | plain h =>
    cases h with
    | typed h => cases h <;> exact List.cons_ne_nil _ _
    | nested h => exact h.block_ne_nil
    | _ => exact List.cons_ne_nil _ _

namespace Parse

variable {ts rest : List Token}

/-- A declaration that succeeds leaves less tokens than there were. -/
theorem length_lt_of_declaration {s : Statement} (h : declaration ts = .ok s rest) :
    rest.length < ts.length := by
  obtain ⟨us, rfl, hd⟩ := declaration_reads h
  have hu := List.length_pos_of_ne_nil hd.declaration_ne_nil
  rw [List.length_append]
  omega

/-! ### The two loops -/

/-- The first error of the declarations and the conclusion, when all errors are
    collected, is the one that reading them gives up with. -/
theorem head?_errorsWithin {budget : Nat} (hn : ts.length < budget) :
    (errorsWithin budget ts).head? = error? (do let _ ← bodyWithin budget; conclusion) ts := by
  induction budget generalizing ts with
  | zero => exact absurd hn (Nat.not_lt_zero _)
  | succ budget ih =>
    cases ts with
    | nil => rfl
    | cons t ts =>
      rw [errorsWithin]
      by_cases hf : t.kind.isFinal = true
      · -- All that is left is the conclusion.
        have hb : bodyWithin (budget + 1) (t :: ts) = .ok [] (t :: ts) := by
          rw [bodyWithin, bind_of_ok (peek_cons t ts), if_pos hf]
          rfl
        rw [if_pos hf, error?_bind_of_ok hb]
        cases hc : conclusion (t :: ts) with
        | ok u rest => rw [error?_of_ok hc]; rfl
        | error e rest => rw [error?_of_error hc]; rfl
      · rw [if_neg hf]
        cases hd : declaration (t :: ts) with
        | error e rest =>
          -- Reading gives up here, and this is the first error collected.
          have hb : bodyWithin (budget + 1) (t :: ts) = .error e rest := by
            rw [bodyWithin, bind_of_ok (peek_cons t ts), if_neg hf, bind_of_error hd]
          rw [error?_bind_of_error _ hb]
          rfl
        | ok first rest =>
          -- Both go on with the same tokens, of which there are less.
          have hl : rest.length < budget :=
            Nat.lt_of_lt_of_le (length_lt_of_declaration hd) (Nat.le_of_lt_succ hn)
          have hb : bodyWithin (budget + 1) (t :: ts) =
              (do return first :: (← bodyWithin budget) : Parse Program) rest := by
            rw [bodyWithin, bind_of_ok (peek_cons t ts), if_neg hf, bind_of_ok hd]
          refine (ih hl).trans ?_
          cases hr : bodyWithin budget rest with
          | ok others mid =>
            rw [bind_of_ok hr] at hb
            rw [error?_bind_of_ok hr, error?_bind_of_ok hb]
          | error e mid =>
            rw [bind_of_error hr] at hb
            rw [error?_bind_of_error _ hr, error?_bind_of_error _ hb]

/-- The first error of a check is the error of the reading. -/
theorem head?_check (tokens : List Token) :
    (Program.check tokens).head? = error? program tokens := by
  rw [Program.check, program]
  cases hb : beginning tokens with
  | error e rest => rw [error?_bind_of_error _ hb]; rfl
  | ok u rest =>
    rw [error?_bind_of_ok hb, error?_bind_of_ok (get_eq_ok.2 ⟨rfl, rfl⟩)]
    refine (head?_errorsWithin (Nat.lt_succ_self _)).trans ?_
    cases hr : bodyWithin (rest.length + 1) rest with
    | ok body mid => rw [error?_bind_of_ok hr, error?_bind_of_ok hr, error?_bind_pure]
    | error e mid => rw [error?_bind_of_error _ hr, error?_bind_of_error _ hr]

end Parse

namespace Program

/-- A program is read with an error exactly when the check finds that error
    first. -/
theorem parse_eq_error_iff {tokens : List Token} {e : SyntaxError} :
    Program.parse tokens = .error e ↔ (Program.check tokens).head? = some e := by
  rw [Parse.head?_check, Program.parse, Parse.error?]
  cases Parse.program tokens with
  | ok program rest => simp
  | error e' rest => rw [Except.error.injEq, Option.some.injEq]

/-- A program is read exactly when the check finds nothing. -/
theorem check_eq_nil_iff {tokens : List Token} :
    Program.check tokens = [] ↔ ∃ program, Program.parse tokens = .ok program := by
  rw [← List.head?_eq_none_iff, Parse.head?_check, Program.parse, Parse.error?]
  cases Parse.program tokens with
  | ok program rest => exact ⟨fun _ => ⟨program, rfl⟩, fun _ => rfl⟩
  | error e rest => simp

end Program

/-! ### Source texts -/

/-- Whether a failure is found before a program is run. -/
def Failure.isStatic : Failure → Bool
  | .lexical _ => true
  | .grammatical _ => true
  | .runtime _ _ => false

namespace Report

variable {source : String} {limit : Nat} {input : List String} {f : Failure}

/-- The run of the source text ends with this failure, which is found before
    anything is executed. -/
def StopsEarly (limit : Nat) (source : String) (input : List String) (f : Failure) : Prop :=
  ∃ report, run limit source input = some report ∧ report.result = .error f ∧ f.isStatic = true

/-- What comes of a program that is read is no failure of the stages before. -/
theorem not_stopsEarly_of_parse {tokens : List Token} {program : Program}
    (hs : scan source = .ok tokens) (hp : Program.parse tokens = .ok program) :
    ¬StopsEarly limit source input f := by
  rintro ⟨report, hr, hf, hst⟩
  rw [run, hs] at hr
  dsimp only at hr
  rw [hp] at hr
  dsimp only at hr
  split at hr
  · cases hr
    exact nomatch hf
  · cases hr
    cases hf
    exact nomatch hst
  · exact nomatch hr

/-- A run stops early with a failure exactly when a check finds that failure
    first, whatever the limit and the input are. -/
theorem stopsEarly_iff :
    StopsEarly limit source input f ↔ (check source).result.head? = some f := by
  cases hs : scan source with
  | error e =>
    rw [check, hs]
    constructor
    · rintro ⟨report, hr, hf, _⟩
      rw [run, hs] at hr
      cases hr
      cases hf
      rfl
    · rintro hf
      cases hf
      exact ⟨⟨[], .error (.lexical e)⟩, by rw [run, hs], rfl, rfl⟩
  | ok tokens =>
    have hc : (check source).result.head? =
        (Program.check tokens).head?.map Failure.grammatical := by
      rw [check, hs, List.head?_map]
    rw [hc]
    cases hp : Program.parse tokens with
    | error e =>
      rw [Program.parse_eq_error_iff.1 hp, Option.map_some]
      constructor
      · rintro ⟨report, hr, hf, _⟩
        rw [run, hs] at hr
        dsimp only at hr
        rw [hp] at hr
        cases hr
        cases hf
        rfl
      · rintro hf
        cases hf
        refine ⟨⟨[.scanned tokens.length], .error (.grammatical e)⟩, ?_, rfl, rfl⟩
        rw [run, hs]
        dsimp only
        rw [hp]
    | ok program =>
      rw [Program.check_eq_nil_iff.2 ⟨program, hp⟩]
      exact ⟨fun h => absurd h (not_stopsEarly_of_parse hs hp), (fun h => nomatch h)⟩

end Report

/-- Checking and reading agree. For all tokens, the check finds nothing exactly
    when they are read as a program, and what the reading fails with is what the
    check finds first. For all source texts, a check finds nothing exactly when
    no run stops before the program is executed, and otherwise a run stops with
    the failure that the check finds first. -/
theorem Program.check_agrees :
    (∀ tokens : List Token,
      (Program.check tokens = [] ↔ ∃ program, Program.parse tokens = .ok program) ∧
      ∀ e, Program.parse tokens = .error e ↔ (Program.check tokens).head? = some e) ∧
    (∀ (source : String) (limit : Nat) (input : List String),
      ((Report.check source).result = [] ↔ ¬∃ f, Report.StopsEarly limit source input f) ∧
      ∀ f, Report.StopsEarly limit source input f ↔
        (Report.check source).result.head? = some f) := by
  refine ⟨fun tokens => ⟨Program.check_eq_nil_iff, fun e => Program.parse_eq_error_iff⟩,
    fun source limit input => ⟨?_, fun f => Report.stopsEarly_iff⟩⟩
  rw [← List.head?_eq_none_iff, Option.eq_none_iff_forall_ne_some, not_exists]
  exact forall_congr' fun f => not_congr Report.stopsEarly_iff.symm

end Tudlo
