import Tudlo.Position

/-!
# Events

What happens while a program is read and run is recorded as a list of events.
The stages of the whole process report at one level of detail, and the steps
inside a running program at a finer one.
-/

namespace Tudlo

/-- Something that happened. -/
inductive Event where
  /-- The source text was cut into so many tokens. -/
  | scanned (tokens : Nat)
  /-- The tokens were read as a program of so many statements. -/
  | parsed (statements : Nat)
  /-- The tokens were checked, and so many errors were found. -/
  | checked (errors : Nat)
  /-- A statement is about to be executed. -/
  | executing (pos : Position)
  /-- A frame was added, which makes so many. -/
  | pushed (depth : Nat)
  /-- A frame was taken away, which leaves so many. -/
  | popped (depth : Nat)
  /-- So many fields of input were read. -/
  | received (fields : Nat)
  /-- The program is over, with so many bytes of output, and either it came to
      its end or it did not. -/
  | finished (bytes : Nat) (ok : Bool)
  /-- The program was stopped by a fault, with this message. -/
  | faulted (message : String)
  deriving DecidableEq

/-- The line that records an event. -/
def Event.line : Event → String
  | .scanned n => "DEBUG scanned source count=" ++ n.repr
  | .parsed n => "DEBUG parsed program statements=" ++ n.repr
  | .checked n => "DEBUG checked program errors=" ++ n.repr
  | .executing pos => "TRACE executing statement pos=" ++ pos.describe
  | .pushed n => "TRACE pushed frame depth=" ++ n.repr
  | .popped n => "TRACE popped frame depth=" ++ n.repr
  | .received n => "TRACE read input count=" ++ n.repr
  | .finished n ok =>
    "DEBUG execution finished bytes=" ++ n.repr ++ " ok=" ++ (if ok then "true" else "false")
  | .faulted message => "DEBUG program faulted error=" ++ message

end Tudlo
