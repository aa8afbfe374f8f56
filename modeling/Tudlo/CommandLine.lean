import Tudlo.Report

/-!
# The command line

The arguments say where the source text comes from and what to do with it.

    [-f | --file] [-c | --check] [--log-level LEVEL] [--] CONTENTS

The contents are the source text, or with `-f` the name of the file that holds
it. The text is run on the lines of standard input, or with `-c` only checked.
Options may stand before and after the contents, one-letter options may be put
together, and each may be given once. After `--` everything is contents.

* `Request.ofArguments`: what the arguments ask for. They are taken in order,
  and the first one that is wrong, or that asks for the version or for help,
  decides.
* `Invocation.outcome`: what becomes of a source text.
* `Outcome.response`: the exit code and the text for both output streams.
-/

namespace Tudlo

/-- What a source text is wanted for. -/
structure Invocation where
  /-- Whether the contents name a file. -/
  file : Bool
  /-- Whether the text is only checked. -/
  check : Bool
  /-- The detail of the log. -/
  logLevel : String
  /-- The source text, or the name of its file. -/
  contents : String
  deriving DecidableEq

/-- What the arguments ask for. -/
inductive Request where
  /-- To run or check a source text. -/
  | invoke (invocation : Invocation)
  /-- To show the version. -/
  | version
  /-- To show how the arguments are used. -/
  | help
  /-- Nothing that makes sense. -/
  | refused
  deriving DecidableEq

namespace Request

/-- The arguments that were already taken. -/
structure Draft where
  /-- Whether the contents name a file. -/
  file : Bool := false
  /-- Whether the text is only checked. -/
  check : Bool := false
  /-- The detail of the log, if it was given. -/
  logLevel : Option String := none
  /-- The contents, if they were given. -/
  contents : Option String := none

/-- The ways to go on after an argument. -/
inductive Progress where
  /-- With the next argument. -/
  | next (draft : Draft)
  /-- With the argument of an option. -/
  | value (draft : Draft)
  /-- Not at all. -/
  | decided (request : Request)

namespace Draft

/-- The option that says that the contents name a file. -/
def setFile (d : Draft) : Progress :=
  if d.file then .decided .refused else .next { d with file := true }

/-- The option that says that the text is only checked. -/
def setCheck (d : Draft) : Progress :=
  if d.check then .decided .refused else .next { d with check := true }

/-- The detail of the log. -/
def setLogLevel (d : Draft) (level : String) : Progress :=
  if d.logLevel.isSome then .decided .refused else .next { d with logLevel := some level }

/-- The contents. -/
def setContents (d : Draft) (contents : String) : Progress :=
  if d.contents.isSome then .decided .refused else .next { d with contents := some contents }

/-- One-letter options, without the dash in front of them. -/
def letters (d : Draft) : List Char → Progress
  | [] => .next d
  | c :: cs =>
    let progress :=
      if c = 'f' then d.setFile
      else if c = 'c' then d.setCheck
      else if c = 'V' then .decided .version
      else if c = 'h' then .decided .help
      else .decided .refused
    match progress with
    | .next d => d.letters cs
    | other => other

/-- An option with a long name, and the text after the equals sign in it, if
    there is one. -/
def long (d : Draft) (name : String) (attached : Option String) : Progress :=
  match attached with
  | some level => if name = "log-level" then d.setLogLevel level else .decided .refused
  | none =>
    if name = "file" then d.setFile
    else if name = "check" then d.setCheck
    else if name = "version" then .decided .version
    else if name = "help" then .decided .help
    else if name = "log-level" then .value d
    else .decided .refused

/-- The name of an option and the text after the equals sign in it. -/
def attached (cs : List Char) : String × Option String :=
  let name := cs.takeWhile (· != '=')
  (String.ofList name, ((cs.drop name.length).tail?).map String.ofList)

/-- One argument, when options are still possible. A single dash is
    contents. -/
def take (d : Draft) (argument : String) : Progress :=
  match argument.toList with
  | '-' :: '-' :: cs =>
    let (name, value) := attached cs
    d.long name value
  | '-' :: c :: cs => d.letters (c :: cs)
  | _ => d.setContents argument

/-- What is asked for when all arguments are taken. -/
def complete (d : Draft) : Request :=
  match d.contents with
  | some contents => .invoke ⟨d.file, d.check, d.logLevel.getD "warn", contents⟩
  | none => .refused

end Draft

/-- Whether an argument can be the text that an option asks for. -/
def isValue (argument : String) : Bool :=
  argument = "-" || argument.toList.head? != some '-'

/-- Takes arguments that are all contents. -/
def takeContents (d : Draft) : List String → Request
  | [] => d.complete
  | argument :: rest =>
    match d.setContents argument with
    | .next d => takeContents d rest
    | _ => .refused

/-- Takes the arguments one after the other. -/
def takeAll (d : Draft) : List String → Request
  | [] => d.complete
  | argument :: rest =>
    if argument = "--" then takeContents d rest
    else
      match d.take argument, rest with
      | .decided request, _ => request
      | .next d, rest => takeAll d rest
      | .value d, level :: rest =>
        if isValue level then
          match d.setLogLevel level with
          | .next d => takeAll d rest
          | _ => .refused
        else .refused
      | .value _, [] => .refused

/-- What the arguments ask for. -/
def ofArguments (arguments : List String) : Request :=
  takeAll {} arguments

end Request

/-- What is sent back to the caller. -/
structure Response where
  /-- The exit code. -/
  exit : UInt32
  /-- The text for standard output. -/
  out : String
  /-- The text for standard error. -/
  err : String
  deriving DecidableEq

namespace Response

/-- The version of the program. -/
def version : Response := ⟨0, "sugod 0.1.0\n", ""⟩

/-- How the arguments are used. -/
def usage : String :=
  "Usage: sugod [OPTIONS] <CONTENTS>\n\n" ++
  "Arguments:\n" ++
  "  <CONTENTS>  The program to run, or the path of its file\n\n" ++
  "Options:\n" ++
  "  -f, --file                   Read the program from the file CONTENTS\n" ++
  "  -c, --check                  Report all syntax errors without running\n" ++
  "      --log-level <LOG_LEVEL>  The detail of the log [default: warn]\n" ++
  "  -h, --help                   Print help\n" ++
  "  -V, --version                Print version\n"

/-- The answer to a question for help. -/
def help : Response := ⟨0, usage, ""⟩

/-- The answer to arguments that make no sense. -/
def refused : Response := ⟨2, "", "error: unexpected arguments\n\n" ++ usage⟩

/-- The answer when the file with the source text cannot be read. -/
def unreadable (path : String) : Response :=
  ⟨1, "", "Failed to read the input file '" ++ path ++
    "'. Perhaps this file does not exist?\n"⟩

/-- The answer to a check, with one line for each failure. -/
def ofCheck (failures : List Failure) : Response :=
  ⟨if failures.isEmpty then 0 else 1, "", String.join (failures.map fun f => f.line ++ "\n")⟩

/-- The answer to a run. What was printed before a failure is kept. -/
def ofRun : Except Failure String → Response
  | .ok output => ⟨0, output, ""⟩
  | .error f => ⟨1, f.output, f.line ++ "\n"⟩

end Response

/-- What became of an invocation. -/
inductive Outcome where
  /-- The file with the source text cannot be read. -/
  | unreadable (path : String)
  /-- The text was checked, with these failures. -/
  | checked (failures : List Failure)
  /-- The text was run, to its end or to a failure. -/
  | ran (result : Except Failure String)

namespace Outcome

/-- The answer to the caller. -/
def response : Outcome → Response
  | .unreadable path => .unreadable path
  | .checked failures => .ofCheck failures
  | .ran result => .ofRun result

/-- Whether a run was stopped for want of input. -/
def wantsInput : Outcome → Bool
  | .ran (.error (.runtime f _)) => f.cause == .inputMissing
  | _ => false

end Outcome

/-- What becomes of an invocation, when `content?` gives the bytes of the files
    that can be read and `stdin` those of standard input. There is no outcome
    when the limit for loops is too small. -/
def Invocation.outcome (limit : Nat) (i : Invocation) (content? : String → Option ByteArray)
    (stdin : ByteArray) : Option Outcome :=
  let script? := if i.file then (content? i.contents).bind String.fromUTF8? else some i.contents
  match script? with
  | none => some (.unreadable i.contents)
  | some script =>
    if i.check then some (.checked (Report.check script).result)
    else
      let lines := inputLines (readableText stdin)
      (Report.run limit script lines).map fun report => .ran report.result

end Tudlo
