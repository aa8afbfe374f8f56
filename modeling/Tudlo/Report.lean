import Tudlo.Grammar.Program
import Tudlo.Machine.Execution
import Tudlo.Token.Scan

/-!
# Running and checking source texts

A source text goes through three stages: it is cut into tokens, the tokens are
read as a program, and the program is executed. The first stage that fails is
the last one. What comes out is a *report*: the events of all stages that were
reached, and the output or the failure.

* `Report.run`: all three stages. There is no report when the limit for loops is too
  small.
* `Report.check`: the first two stages, with all syntax errors instead of the first
  one.
-/

namespace Tudlo

/-- Why a source text could not be run to its end. -/
inductive Failure where
  /-- The text is not made of tokens. -/
  | lexical (e : LexicalError)
  /-- The tokens are not a program. -/
  | grammatical (e : SyntaxError)
  /-- The program was stopped by a fault, after this output. -/
  | runtime (f : Fault) (output : String)
  deriving DecidableEq

namespace Failure

/-- The name of the stage that failed. -/
def category : Failure → String
  | .lexical _ => "lexical error"
  | .grammatical _ => "syntax error"
  | .runtime _ _ => "runtime error"

/-- What is wrong, and where. -/
def message : Failure → String
  | .lexical e => e.message
  | .grammatical e => e.message
  | .runtime f _ => f.message

/-- The output before the failure. -/
def output : Failure → String
  | .runtime _ output => output
  | _ => ""

/-- The line that tells the user about the failure. -/
def line (f : Failure) : String :=
  f.category ++ ": " ++ f.message

end Failure

/-- What became of a source text. -/
structure Report (α : Type) where
  /-- What happened, in order. -/
  events : List Event
  /-- What came out. -/
  result : α

/-- Runs a source text on the given lines of input. No loop asks for its
    condition more than `limit` times; if one would, there is no report. -/
def Report.run (limit : Nat) (source : String) (input : List String) :
    Option (Report (Except Failure String)) :=
  match scan source with
  | .error e => some ⟨[], .error (.lexical e)⟩
  | .ok tokens =>
    let scanned : Event := .scanned tokens.length
    match Program.parse tokens with
    | .error e => some ⟨[scanned], .error (.grammatical e)⟩
    | .ok program =>
      let parsed : Event := .parsed program.length
      match program.exec limit { input, trace := #[scanned, parsed] } with
      | .ok _ m => some ⟨m.trace.toList, .ok m.output⟩
      | .error (.fault f) m =>
        some ⟨(m.emit (.faulted f.message)).trace.toList, .error (.runtime f m.output)⟩
      | .error .exhausted _ => none

/-- All that is wrong with a source text before it is run. -/
def Report.check (source : String) : Report (List Failure) :=
  match scan source with
  | .error e => ⟨[], [.lexical e]⟩
  | .ok tokens =>
    let errors := Program.check tokens
    ⟨[.scanned tokens.length, .checked errors.length], errors.map .grammatical⟩

end Tudlo
