import Tudlo.Token.Basic

/-!
# Lexemes

A source text is made of *lexemes*, one after the other: each of them is a token, a
run of blanks or a comment. At every place the longest lexeme is taken. `measure`
says of the text at hand what its first lexeme is and how far it reaches.

Some tokens are two words with only spaces and tabs between them. The words are
lexemes of their own, and `pair?` says which tokens they are together.
-/

namespace Tudlo

/-- What the first lexeme of a text is, and how far it reaches. -/
structure Extent where
  /-- The token that the lexeme is, or nothing for blanks and comments. -/
  kind : Option TokenKind
  /-- The number of characters of the lexeme after its first one. -/
  more : Nat

namespace Lexeme

/-! ### The classes of characters -/

/-- The characters that separate tokens. -/
def isSpace (c : Char) : Bool :=
  c == ' ' || c == '\t' || c == '\n' || c == '\r' || c == '\x0c'

/-- The characters that may stand between the words of one token. -/
def isInline (c : Char) : Bool :=
  c == ' ' || c == '\t'

/-- The characters that a word starts with. -/
def isWordStart (c : Char) : Bool :=
  c.isAlpha || c == '_'

/-- The characters that a word goes on with. -/
def isWordRest (c : Char) : Bool :=
  c.isAlphanum || c == '_'

/-- The characters that end a line. -/
def isLineEnd (c : Char) : Bool :=
  c == '\n' || c == '\r'

/-! ### One lexeme -/

/-- The token that a word is: a keyword, or else a name. -/
def wordKind (word : String) : TokenKind :=
  match Keyword.ofWord? word with
  | some k => .keyword k
  | none => .name word

/-- The literal that the text `s` between double quotes is: a truth value when
    it is the word for one. -/
def quoted (s : String) : Literal :=
  if s = Value.truthWord true then .boolean true
  else if s = Value.truthWord false then .boolean false
  else .text s

/-- The symbol that starts with `c`, and how far it reaches into `cs`. -/
def symbol? (c : Char) (cs : List Char) : Option (Symbol × Nat) :=
  match c, cs with
  | '=', '=' :: _ => some (.equal, 1)
  | '<', '>' :: _ => some (.notEqual, 1)
  | '!', '=' :: _ => some (.notEqual, 1)
  | '<', '=' :: _ => some (.lessEqual, 1)
  | '>', '=' :: _ => some (.greaterEqual, 1)
  | '+', _ => some (.plus, 0)
  | '-', _ => some (.minus, 0)
  | '*', _ => some (.star, 0)
  | '/', _ => some (.slash, 0)
  | '%', _ => some (.percent, 0)
  | '&', _ => some (.ampersand, 0)
  | '=', _ => some (.assign, 0)
  | '<', _ => some (.less, 0)
  | '>', _ => some (.greater, 0)
  | '(', _ => some (.openParen, 0)
  | ')', _ => some (.closeParen, 0)
  | '\x7b', _ => some (.openBrace, 0)
  | '\x7d', _ => some (.closeBrace, 0)
  | ',', _ => some (.comma, 0)
  | ':', _ => some (.colon, 0)
  | _, _ => none

/-- The number that starts with the digit `c`. It is a decimal when the digits
    are followed by a point and more digits, and an integer otherwise. -/
def number (c : Char) (cs : List Char) : Except LexicalCause Extent :=
  let whole := cs.takeWhile Char.isDigit
  let fraction := match cs.dropWhile Char.isDigit with
    | '.' :: ds => ds.takeWhile Char.isDigit
    | _ => []
  if fraction.isEmpty then
    match Integer.narrow? (Numeral.natOf (c :: whole)) with
    | some n => .ok ⟨some (.literal (.integer n)), whole.length⟩
    | none => .error (.literalTooLarge (String.ofList (c :: whole)))
  else
    let d := (Numeral.ofDigits false (c :: whole) fraction 0).toBinary64
    .ok ⟨some (.literal (.decimal d)), whole.length + 1 + fraction.length⟩

/-- The character between single quotes, when `cs` follows the first quote. -/
def character : List Char → Except LexicalCause Extent
  | c :: '\'' :: _ =>
    if c = '\'' || isLineEnd c then .error .unterminatedCharacter
    else .ok ⟨some (.literal (.character c)), 2⟩
  | _ => .error .unterminatedCharacter

/-- The character between square brackets, when `cs` follows the first
    bracket. -/
def bracketed : List Char → Except LexicalCause Extent
  | c :: ']' :: _ =>
    if isLineEnd c then .error (.unexpectedCharacter '[')
    else .ok ⟨some (.literal (.bracketed c)), 2⟩
  | _ => .error (.unexpectedCharacter '[')

/-- The text between double quotes, when `cs` follows the first quote. It may
    go over several lines. -/
def quotation (cs : List Char) : Except LexicalCause Extent :=
  let inside := cs.takeWhile (· != '"')
  if inside.length = cs.length then .error .unterminatedText
  else .ok ⟨some (.literal (quoted (String.ofList inside))), inside.length + 1⟩

/-- What the lexeme is that starts with `c` and goes on in `cs`, and how far it
    reaches. -/
def measure (c : Char) (cs : List Char) : Except LexicalCause Extent :=
  if isSpace c then .ok ⟨none, (cs.takeWhile isSpace).length⟩
  else if c = '-' && cs.head? = some '-' then .ok ⟨none, (cs.takeWhile (· != '\n')).length⟩
  else if c.isDigit then number c cs
  else if isWordStart c then
    let rest := cs.takeWhile isWordRest
    .ok ⟨some (wordKind (String.ofList (c :: rest))), rest.length⟩
  else if c = '\'' then character cs
  else if c = '[' then bracketed cs
  else if c = '"' then quotation cs
  else if c = '$' then .ok ⟨some (.literal .lineBreak), 0⟩
  else match symbol? c cs with
    | some (s, more) => .ok ⟨some (.symbol s), more⟩
    | none => .error (if c = '!' then .loneBang else .unexpectedCharacter c)

/-! ### Tokens of two words -/

/-- The token that two words are together. -/
def pair? : TokenKind → TokenKind → Option TokenKind
  | .keyword .kung, .keyword .dili => some (.keyword .kungDili)
  | .keyword .kung, .name "WALA" => some (.keyword .kungWala)
  | .name "ALANG", .name "SA" => some (.keyword .alangSa)
  | _, _ => none

end Lexeme

end Tudlo
