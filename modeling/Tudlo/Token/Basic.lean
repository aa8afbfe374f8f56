import Tudlo.Diagnostic
import Tudlo.Operator.Basic
import Tudlo.ScalarType

/-!
# Tokens

A source text is read as a sequence of *tokens*: literals, keywords, names and
symbols, and one token that marks the end. Each token remembers the text it was
read from and the position where that text starts.

The keywords are named here by their words. Three of them are written as two
words with blanks between: `KUNG DILI`, `KUNG WALA` and `ALANG SA`. Apart from
`DILI`, which is a keyword too, the second words are ordinary names elsewhere.
-/

namespace Tudlo

/-- The literals. -/
inductive Literal where
  | integer (n : Int64)
  | decimal (d : Binary64)
  /-- A character between single quotes. -/
  | character (c : Char)
  /-- A character between square brackets. -/
  | bracketed (c : Char)
  | text (s : String)
  /-- One of the words for truth values, between double quotes. -/
  | boolean (b : Bool)
  /-- The sign for a line break. -/
  | lineBreak
  deriving DecidableEq

/-- The value that a literal stands for. -/
def Literal.value : Literal → Value
  | .integer n => .integer n
  | .decimal d => .decimal d
  | .character c => .character c
  | .bracketed c => .character c
  | .text s => .text s
  | .boolean b => .boolean b
  | .lineBreak => .text Value.lineBreak

/-- The keywords. -/
inductive Keyword where
  /-- Begins a program. -/
  | sugod
  /-- Ends a program. -/
  | katapusan
  /-- Announces a declaration. -/
  | mugna
  /-- Names a type. -/
  | scalar (type : ScalarType)
  /-- Prints. -/
  | ipakita
  /-- Reads a line of input. -/
  | dawat
  /-- Asks for a condition. -/
  | kung
  /-- Asks for another condition when the ones before failed. -/
  | kungDili
  /-- What is done when all conditions failed. -/
  | kungWala
  /-- Repeats. -/
  | alangSa
  /-- May stand before the brace that opens a block. -/
  | pundok
  /-- Conjunction. -/
  | ug
  /-- Disjunction. -/
  | o
  /-- Negation. -/
  | dili
  deriving DecidableEq

namespace Keyword

/-- How a keyword is written. -/
def spelling : Keyword → String
  | .sugod => "SUGOD"
  | .katapusan => "KATAPUSAN"
  | .mugna => "MUGNA"
  | .scalar type => type.word
  | .ipakita => "IPAKITA"
  | .dawat => "DAWAT"
  | .kung => "KUNG"
  | .kungDili => "KUNG DILI"
  | .kungWala => "KUNG WALA"
  | .alangSa => "ALANG SA"
  | .pundok => "PUNDOK"
  | .ug => "UG"
  | .o => "O"
  | .dili => "DILI"

/-- The keywords that are one word. -/
def singles : List Keyword :=
  [.sugod, .katapusan, .mugna, .scalar .integer, .scalar .character, .scalar .boolean,
   .scalar .decimal, .ipakita, .dawat, .kung, .pundok, .ug, .o, .dili]

/-- The keyword that a word is. -/
def ofWord? (word : String) : Option Keyword :=
  singles.find? fun k => k.spelling == word

end Keyword

/-- The symbols. -/
inductive Symbol where
  | plus
  | minus
  | star
  | slash
  | percent
  | ampersand
  /-- Assigns. -/
  | assign
  | equal
  /-- Written `<>` or `!=`. -/
  | notEqual
  | less
  | lessEqual
  | greater
  | greaterEqual
  | openParen
  | closeParen
  | openBrace
  | closeBrace
  | comma
  | colon
  deriving DecidableEq

/-- What a token is. -/
inductive TokenKind where
  | literal (l : Literal)
  | keyword (k : Keyword)
  | name (s : String)
  | symbol (s : Symbol)
  /-- The end of the source text. -/
  | ending
  deriving DecidableEq

/-- A token. -/
structure Token where
  /-- What the token is. -/
  kind : TokenKind
  /-- The text that the token was read from, empty for the end. -/
  lexeme : String
  /-- Where that text starts. -/
  pos : Position
  deriving DecidableEq

/-- A token in words, as messages give it. -/
def Token.describe (t : Token) : String :=
  if t.kind = .ending then "end of input" else "'" ++ t.lexeme ++ "'"

/-! ### What is not a token -/

/-- What can be wrong with a source text before it is even a sequence of
    tokens. -/
inductive LexicalCause where
  /-- No token starts with the character. -/
  | unexpectedCharacter (c : Char)
  /-- A single quote that does not open a character. -/
  | unterminatedCharacter
  /-- A double quote that is not followed by another one. -/
  | unterminatedText
  /-- An exclamation mark without an equals sign after it. -/
  | loneBang
  /-- Digits of an integer that does not fit. -/
  | literalTooLarge (digits : String)
  deriving DecidableEq

instance : Explained LexicalCause where
  sentence
    | .unexpectedCharacter c => "Unexpected character '" ++ String.singleton c ++ "'."
    | .unterminatedCharacter =>
      "Character literal must be one character between single quotes."
    | .unterminatedText => "Unterminated text literal."
    | .loneBang => "Expected '=' after '!'."
    | .literalTooLarge digits => "Integer literal " ++ digits ++ " is too large."

/-- What is wrong with a source text, and where. -/
abbrev LexicalError := Diagnostic LexicalCause

end Tudlo
