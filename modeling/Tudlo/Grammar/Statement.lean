import Tudlo.Grammar.Expression

/-!
# The grammar of statements

    declaration  =  "MUGNA" typed | statement
    typed        =  type name ("," name)* ("=" expression)?
    statement    =  "IPAKITA" ":" expression
                 |  "DAWAT" ":" name ("," name)*
                 |  "KUNG" choice
                 |  "ALANG SA" loop
                 |  block | typed | expression
    choice       =  expression block ("KUNG DILI" choice | "KUNG WALA" block)?
    loop         =  clause "," expression "," clause block, with or without
                    parentheses around the three clauses
    clause       =  "MUGNA" typed | expression
    block        =  "PUNDOK"? "{" declaration* "}"

Declarations contain blocks, and blocks contain declarations. As with
expressions, the rules take the inner one as a parameter and
`declarationWithin` ties the knot, with rounds enough for all tokens.

A declaration that fails gives up the tokens up to the next one that can begin
a statement (`Parse.resuming`), so that reading can go on with other
statements.
-/

namespace Tudlo

/-- Whether a token ends the statements of a program. -/
def TokenKind.isFinal : TokenKind → Bool
  | .keyword .katapusan => true
  | .ending => true
  | _ => false

/-- Whether a token is a keyword that a statement begins with. -/
def TokenKind.beginsStatement : TokenKind → Bool
  | .keyword .mugna => true
  | .keyword .ipakita => true
  | .keyword .dawat => true
  | .keyword .kung => true
  | .keyword .alangSa => true
  | .keyword .pundok => true
  | .keyword (.scalar _) => true
  | _ => false

/-- What follows the parenthesis that closes `depth` more open ones, if it
    comes before the end. -/
def afterParentheses : (depth : Nat) → List Token → Option (List Token)
  | _, [] => none
  | depth, t :: rest =>
    match t.kind with
    | .symbol .openParen => afterParentheses (depth + 1) rest
    | .symbol .closeParen =>
      match depth with
      | 0 => some rest
      | depth + 1 => afterParentheses depth rest
    | .ending => none
    | _ => afterParentheses depth rest

/-- Whether the clauses of a loop are in parentheses: the tokens begin with an
    opening one, and a block follows the one that closes it. Otherwise an
    opening parenthesis belongs to the first clause. -/
def clausesInParentheses : List Token → Bool
  | [] => false
  | t :: rest =>
    t.kind == .symbol .openParen &&
      match afterParentheses 0 rest with
      | some (u :: _) => u.kind == .symbol .openBrace || u.kind == .keyword .pundok
      | _ => false

namespace Parse

/-- A type, the names declared with it, and their initial value if an equals
    sign follows. -/
def typed : Parse Statement := do
  let t ← peek
  match t.kind with
  | .keyword (.scalar type) =>
    skip
    let declared ← names
    if (← accept (.symbol .assign)).isSome then
      return .declare type declared (some (← expression)) t.pos
    else return .declare type declared none t.pos
  | _ => throw ⟨.typeExpected t.describe, t.pos⟩

/-- An expression as a statement, known by its first token. -/
def computation : Parse Statement := do
  let t ← peek
  return .compute (← expression) t.pos

/-- The first or last clause of a loop. -/
def clause : Parse Statement := do
  if (← accept (.keyword .mugna)).isSome then typed else computation

/-- The declarations of a block and the brace that closes it. At most `budget`
    tokens are looked at as the first one of a declaration or as the brace. -/
def declarationsWithin (declaration : Parse Statement) :
    (budget : Nat) → Parse (List Statement)
  | 0 => throw outOfTokens
  | budget + 1 => do
    let t ← peek
    if t.kind = .symbol .closeBrace then
      skip
      return []
    else if t.kind.isFinal then throw ⟨.tokenExpected .closeBlock t.describe, t.pos⟩
    else
      let first ← declaration
      return first :: (← declarationsWithin declaration budget)

/-- A block of declarations. -/
def blockOf (declaration : Parse Statement) : Parse Block := do
  let t ← peek
  let _ ← accept (.keyword .pundok)
  expect (.symbol .openBrace) .openBlock
  let statements ← declarationsWithin declaration ((← get).length + 1)
  return ⟨statements, t.pos⟩

/-- A condition with its block, and what is done otherwise. The statement is
    known by the keyword before it, at `pos`. At most `rounds` conditions are
    read. -/
def choiceWithin (block : Parse Block) : (rounds : Nat) → (pos : Position) → Parse Statement
  | 0, _ => throw outOfTokens
  | rounds + 1, pos => do
    let condition ← expression
    let whenTrue ← block
    let next ← peek
    match next.kind with
    | .keyword .kungDili =>
      skip
      let other ← choiceWithin block rounds next.pos
      return .choose condition whenTrue (some ⟨[other], next.pos⟩) pos
    | .keyword .kungWala =>
      skip
      let whenFalse ← block
      return .choose condition whenTrue (some whenFalse) pos
    | _ => return .choose condition whenTrue none pos

/-- The clauses and the block of a loop, which is known by the keyword before
    them, at `pos`. -/
def loop (block : Parse Block) (pos : Position) : Parse Statement := do
  let parenthesised := clausesInParentheses (← get)
  if parenthesised then skip
  let initial ← clause
  expect (.symbol .comma) .commaAfterInitial
  let condition ← expression
  expect (.symbol .comma) .commaAfterCondition
  let step ← clause
  if parenthesised then expect (.symbol .closeParen) .closeClauses
  let body ← block
  return .loop initial condition step body pos

/-- A statement whose blocks are made of declarations. -/
def statementOf (declaration : Parse Statement) : Parse Statement := do
  let t ← peek
  match t.kind with
  | .keyword .ipakita =>
    skip
    expect (.symbol .colon) .colonAfterPrint
    return .print (← expression) t.pos
  | .keyword .dawat =>
    skip
    expect (.symbol .colon) .colonAfterRead
    return .read (← names) t.pos
  | .keyword .kung =>
    skip
    choiceWithin (blockOf declaration) ((← get).length + 1) t.pos
  | .keyword .alangSa =>
    skip
    loop (blockOf declaration) t.pos
  | .keyword .pundok => return .block (← blockOf declaration)
  | .symbol .openBrace => return .block (← blockOf declaration)
  | .keyword (.scalar _) => typed
  | _ => computation

/-- The rule `rule`, which when it fails gives up the tokens up to the next one
    that can begin a statement or that ends the statements of a program. -/
def resuming {α : Type} (rule : Parse α) : Parse α := fun tokens =>
  match rule tokens with
  | .ok a rest => .ok a rest
  | .error e rest =>
    .error e (rest.dropWhile fun t => !(t.kind.isFinal || t.kind.beginsStatement))

/-- A declaration or a statement, with less than `rounds` of them inside one
    another. -/
def declarationWithin : (rounds : Nat) → Parse Statement
  | 0 => throw outOfTokens
  | rounds + 1 => resuming do
    if (← accept (.keyword .mugna)).isSome then typed
    else statementOf (declarationWithin rounds)

/-- A declaration or a statement. -/
def declaration : Parse Statement := do
  declarationWithin ((← get).length + 1)

/-- A statement. -/
def statement : Parse Statement := do
  statementOf (declarationWithin ((← get).length + 1))

/-- A block. -/
def block : Parse Block := do
  blockOf (declarationWithin ((← get).length + 1))

end Parse

end Tudlo
