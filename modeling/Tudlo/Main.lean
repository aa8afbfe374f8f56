import Tudlo.CommandLine

/-!
# The program

Reads the arguments, the file and standard input, and writes the answer. A line
of standard input is read only when a run asks for it: the run is then done
again with one line more. In the same way a run that does not end within the
limit for loops is done again with a larger one, for as long as it takes.
-/

namespace Tudlo

/-- The bytes of a file, if it can be read. -/
def readFile (path : String) : IO (Option ByteArray) := do
  try
    return some (← IO.FS.readBinFile path)
  catch _ =>
    return none

/-- The bytes up to the next line feed of standard input, or up to its end,
    after those in `line`. -/
partial def readLine (stdin : IO.FS.Stream) (line : ByteArray) : IO ByteArray := do
  let byte ← stdin.read 1
  if byte.isEmpty then return line
  else if byte[0]? = some 0x0A then return line ++ byte
  else readLine stdin (line ++ byte)

/-- The answer to an invocation, when `stdin` was read so far. -/
partial def answer (i : Invocation) (content : Option ByteArray) (limit : Nat)
    (stdin : ByteArray) (ended : Bool) : IO Response := do
  match i.outcome limit (fun _ => content) stdin with
  | none => answer i content (16 * limit) stdin ended
  | some outcome =>
    if outcome.wantsInput && !ended then
      let line ← readLine (← IO.getStdin) .empty
      answer i content limit (stdin ++ line) line.isEmpty
    else return outcome.response

/-- The answer to what the arguments ask for. -/
def serve : Request → IO Response
  | .version => return .version
  | .help => return .help
  | .refused => return .refused
  | .invoke i => do
    let content ← if i.file then readFile i.contents else pure none
    answer i content 65536 .empty false

end Tudlo

/-- Serves the arguments. -/
def main (arguments : List String) : IO UInt32 := do
  let response ← Tudlo.serve (.ofArguments arguments)
  IO.print response.out
  (← IO.getStdout).flush
  IO.eprint response.err
  return response.exit
