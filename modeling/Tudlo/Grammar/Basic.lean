import Tudlo.Token.Basic

/-!
# Reading tokens

The rules of the grammar read tokens from the front of a list. A rule either
gives what it has read or a syntax error, and in both cases it leaves the
tokens that it has not consumed: after an error, too, reading can go on from
there.

This module has the errors and the steps that all rules are made of:

* `Parse`: a rule, as a state-and-exception monad whose state survives errors;
* `Parse.peek`, `Parse.skip`: look at the next token, and consume it;
* `Parse.takeIf`, `Parse.accept`, `Parse.expect`: consume a token of a certain
  kind, if it is there or else as an error;
* `Parse.names`: names separated by commas.

A list of tokens from a source text ends with the token for its end, which no
rule consumes. On other lists a rule can run out of tokens, and then the
complaint is that the program does not end, at no position.
-/

namespace Tudlo

/-- The tokens that a rule can insist on, by the place where it does. -/
inductive Expectation where
  | colonAfterPrint
  | colonAfterRead
  | openBlock
  | closeBlock
  | closeExpression
  | commaAfterInitial
  | commaAfterCondition
  | closeClauses
  deriving DecidableEq

/-- An expectation in words. -/
def Expectation.describe : Expectation → String
  | .colonAfterPrint => "':' after IPAKITA"
  | .colonAfterRead => "':' after DAWAT"
  | .openBlock => "'\x7b' to open a block"
  | .closeBlock => "'\x7d' to close the block"
  | .closeExpression => "')' after expression"
  | .commaAfterInitial => "',' after the loop initializer"
  | .commaAfterCondition => "',' after the loop condition"
  | .closeClauses => "')' after the loop clauses"

/-- What can be wrong with a sequence of tokens. The tokens found are given as
    they are described. -/
inductive SyntaxCause where
  /-- The program does not begin as programs do. -/
  | missingBegin (found : String)
  /-- The program does not end as programs do. -/
  | missingEnd
  /-- Something follows the end of the program. -/
  | trailing (found : String)
  /-- A declaration does not name a type. -/
  | typeExpected (found : String)
  /-- A name is missing. -/
  | nameExpected (found : String)
  /-- Something other than a variable is assigned to. -/
  | invalidTarget
  /-- A certain token is missing. -/
  | tokenExpected (expected : Expectation) (found : String)
  /-- An expression is missing. -/
  | expressionExpected (found : String)
  deriving DecidableEq

instance : Explained SyntaxCause where
  sentence
    | .missingBegin found => "Program must start with SUGOD, found " ++ found ++ "."
    | .missingEnd => "Program must end with KATAPUSAN."
    | .trailing found => "Unexpected " ++ found ++ " after KATAPUSAN."
    | .typeExpected found =>
      "Expected NUMERO, LETRA, TINUOD or TIPIK after MUGNA, found " ++ found ++ "."
    | .nameExpected found => "Expected identifier, found " ++ found ++ "."
    | .invalidTarget => "Invalid assignment target."
    | .tokenExpected expected found =>
      "Expected " ++ expected.describe ++ ", found " ++ found ++ "."
    | .expressionExpected found => "Expected expression, found " ++ found ++ "."

/-- What is wrong with a sequence of tokens, and where. -/
abbrev SyntaxError := Diagnostic SyntaxCause

/-- A rule of the grammar that reads something of type `α`. -/
abbrev Parse := EStateM SyntaxError (List Token)

namespace Parse

/-- The error of having no token left. -/
def outOfTokens : SyntaxError := ⟨.missingEnd, .nowhere⟩

/-- The next token, which is not consumed. -/
def peek : Parse Token := do
  match ← get with
  | t :: _ => return t
  | [] => throw outOfTokens

/-- Consumes the next token. -/
def skip : Parse Unit :=
  modify List.tail

/-- Consumes the next token if `recognise` makes something of its kind. What it
    makes is given, with the position of the token. -/
def takeIf {α : Type} (recognise : TokenKind → Option α) : Parse (Option (α × Position)) := do
  match ← get with
  | t :: rest =>
    match recognise t.kind with
    | some a =>
      set rest
      return some (a, t.pos)
    | none => return none
  | [] => return none

/-- Consumes the next token if it is of the given kind. Its position is given
    if it was. -/
def accept (kind : TokenKind) : Parse (Option Position) := do
  return (← takeIf fun k => if k = kind then some () else none).map Prod.snd

/-- Consumes the next token, which has to be of the given kind. -/
def expect (kind : TokenKind) (expected : Expectation) : Parse Unit := do
  let t ← peek
  if t.kind = kind then skip
  else throw ⟨.tokenExpected expected t.describe, t.pos⟩

/-- One name or more, each one but the first after a comma. -/
def names : List Token → EStateM.Result SyntaxError (List Token) (List String)
  | [] => .error outOfTokens []
  | t :: rest =>
    match t.kind, rest with
    | .name s, comma :: others =>
      if comma.kind = .symbol .comma then
        match names others with
        | .ok ss left => .ok (s :: ss) left
        | .error e left => .error e left
      else .ok [s] rest
    | .name s, [] => .ok [s] rest
    | _, _ => .error ⟨.nameExpected t.describe, t.pos⟩ (t :: rest)

end Parse

end Tudlo
