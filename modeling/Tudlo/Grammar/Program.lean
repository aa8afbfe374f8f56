import Tudlo.Grammar.Statement

/-!
# The grammar of programs

    program  =  "SUGOD" declaration* "KATAPUSAN"

A program is read in two ways. `Program.parse` gives its statements, or the
first error. `Program.check` gives all errors: it goes on after a missing
beginning and after every declaration that fails, from where that declaration
resumes.
-/

namespace Tudlo

namespace Parse

/-- The keyword that begins a program. -/
def beginning : Parse Unit := do
  let t ← peek
  if t.kind = .keyword .sugod then skip
  else throw ⟨.missingBegin t.describe, t.pos⟩

/-- The keyword that ends a program, with nothing after it. -/
def conclusion : Parse Unit := do
  let t ← peek
  if t.kind = .keyword .katapusan then
    skip
    let next ← peek
    if next.kind = .ending then return ()
    else throw ⟨.trailing next.describe, next.pos⟩
  else throw ⟨.missingEnd, t.pos⟩

/-- The declarations up to a token that ends them. At most `budget` tokens are
    looked at as the first one of a declaration or as that token. -/
def bodyWithin : (budget : Nat) → Parse Program
  | 0 => throw outOfTokens
  | budget + 1 => do
    let t ← peek
    if t.kind.isFinal then return []
    else
      let first ← declaration
      return first :: (← bodyWithin budget)

/-- A whole program. -/
def program : Parse Program := do
  beginning
  let body ← bodyWithin ((← get).length + 1)
  conclusion
  return body

/-- The errors of the declarations up to a token that ends them, and then of
    the conclusion. When tokens run out before, that is the last error. A
    declaration that fails gives up at least one token. -/
def errorsWithin : (budget : Nat) → List Token → List SyntaxError
  | 0, _ => []
  | _, [] => [outOfTokens]
  | budget + 1, t :: ts =>
    if t.kind.isFinal then
      match conclusion (t :: ts) with
      | .ok _ _ => []
      | .error e _ => [e]
    else
      match declaration (t :: ts) with
      | .ok _ rest => errorsWithin budget rest
      | .error e rest =>
        e :: errorsWithin budget (if rest.length = (t :: ts).length then rest.tail else rest)

end Parse

namespace Program

/-- The program that `tokens` are, or the first error. -/
def parse (tokens : List Token) : Except SyntaxError Program :=
  match Parse.program tokens with
  | .ok statements _ => .ok statements
  | .error e _ => .error e

/-- All errors of a program, in the order in which they are found. -/
def check (tokens : List Token) : List SyntaxError :=
  match Parse.beginning tokens with
  | .ok _ rest => Parse.errorsWithin (rest.length + 1) rest
  | .error e rest => e :: Parse.errorsWithin (rest.length + 1) rest

end Program

end Tudlo
