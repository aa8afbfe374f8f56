import Tudlo.Grammar.Basic
import Tudlo.Syntax

/-!
# The grammar of expressions

Binary operators are arranged in *levels*, from the loosest to the tightest,
and those of one level group to the left (`chain`). Between the loosest level,
which joins texts, and the other ones stands assignment, which groups to the
right: the right side of an assignment is a whole expression again.

    expression  =  assignment ("&" assignment)*
    assignment  =  operation ("=" expression)?
    operation   =  the levels of `Level.all`, tightest last, over unary
    unary       =  ("-" | "+" | "DILI")* primary
    primary     =  literal | name | "(" expression ")"

The rules call each other only by way of a whole expression, in parentheses or
on the right side of an assignment. So every rule takes that one as a
parameter, and `expressionWithin` ties the knot. Each time round at least one
token is consumed, and therefore as many rounds as there are tokens are enough
for `expression`.
-/

namespace Tudlo

/-- The levels of binary operators that bind tighter than assignment. -/
inductive Level where
  | or
  | and
  | equality
  | comparison
  | term
  | factor
  deriving DecidableEq

namespace Level

/-- The levels, from the loosest to the tightest. -/
def all : List Level :=
  [.or, .and, .equality, .comparison, .term, .factor]

/-- The operator of the level that a token is, if it is one. -/
def operator? : Level → TokenKind → Option BinaryOp
  | .or, .keyword .o => some .or
  | .and, .keyword .ug => some .and
  | .equality, .symbol .equal => some .equal
  | .equality, .symbol .notEqual => some .notEqual
  | .comparison, .symbol .less => some .less
  | .comparison, .symbol .lessEqual => some .lessEqual
  | .comparison, .symbol .greater => some .greater
  | .comparison, .symbol .greaterEqual => some .greaterEqual
  | .term, .symbol .plus => some .add
  | .term, .symbol .minus => some .sub
  | .factor, .symbol .star => some .mul
  | .factor, .symbol .slash => some .div
  | .factor, .symbol .percent => some .rem
  | _, _ => none

end Level

/-- The operator that joins texts, if a token is it. -/
def joinOperator? : TokenKind → Option BinaryOp
  | .symbol .ampersand => some .join
  | _ => none

/-- The operator that a token is in front of an operand, if it is one. -/
def unaryOperator? : TokenKind → Option UnaryOp
  | .symbol .minus => some .negate
  | .symbol .plus => some .plus
  | .keyword .dili => some .not
  | _ => none

namespace Parse

/-- The operations that go on after `left` with operators from `operator?`. Of
    these at most `budget` are read. -/
def chainFrom (operator? : TokenKind → Option BinaryOp) (operand : Parse Expr) :
    (budget : Nat) → (left : Expr) → Parse Expr
  | 0, left => return left
  | budget + 1, left => do
    match ← takeIf operator? with
    | some (op, pos) =>
      let right ← operand
      chainFrom operator? operand budget (.binary op left right pos)
    | none => return left

/-- Operands with operators from `operator?` between them, grouped to the
    left. -/
def chain (operator? : TokenKind → Option BinaryOp) (operand : Parse Expr) : Parse Expr := do
  let first ← operand
  chainFrom operator? operand (← get).length first

/-- The operations of the given levels, from the loosest to the tightest, over
    `operand`. -/
def operations (levels : List Level) (operand : Parse Expr) : Parse Expr :=
  levels.foldr (fun level tighter => chain level.operator? tighter) operand

/-- Operators in front of what `primary` reads. -/
def unary (primary : Parse Expr) :
    List Token → EStateM.Result SyntaxError (List Token) Expr
  | [] => primary []
  | t :: rest =>
    match unaryOperator? t.kind with
    | some op =>
      match unary primary rest with
      | .ok operand left => .ok (.unary op operand t.pos) left
      | .error e left => .error e left
    | none => primary (t :: rest)

/-- A literal, a variable, or an expression in parentheses. -/
def primary (expression : Parse Expr) : Parse Expr := do
  let t ← peek
  match t.kind with
  | .literal l =>
    skip
    return .literal l.value t.pos
  | .name s =>
    skip
    return .var s t.pos
  | .symbol .openParen =>
    skip
    let inner ← expression
    expect (.symbol .closeParen) .closeExpression
    return inner
  | _ => throw ⟨.expressionExpected t.describe, t.pos⟩

/-- An operation, and the expression assigned to it if an equals sign follows.
    What is assigned to has to be a variable, which is asked for only after the
    expression is read. -/
def assignment (expression : Parse Expr) : Parse Expr := do
  let target ← operations Level.all (unary (primary expression))
  match ← accept (.symbol .assign) with
  | some sign =>
    let value ← expression
    match target with
    | .var s pos => return .assign s value pos
    | _ => throw ⟨.invalidTarget, sign⟩
  | none => return target

/-- An expression with less than `rounds` expressions inside one another. -/
def expressionWithin : (rounds : Nat) → Parse Expr
  | 0 => throw outOfTokens
  | rounds + 1 => chain joinOperator? (assignment (expressionWithin rounds))

/-- An expression. -/
def expression : Parse Expr := do
  expressionWithin ((← get).length + 1)

/-- The operations of a level and of all tighter ones. -/
def operation (level : Level) : Parse Expr := do
  let rounds := (← get).length + 1
  operations (Level.all.dropWhile (· != level)) (unary (primary (expressionWithin rounds)))

end Parse

end Tudlo
