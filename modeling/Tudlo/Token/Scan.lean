import Tudlo.Token.Lexeme
import Tudlo.Token.LineIndex

/-!
# From text to tokens

The tokens of a source text are found from its start to its end. Blanks and
comments are passed over (`Cursor.next`). Every token has its lexeme, which is cut
out of the text by byte offsets, and the position of its first byte. A last token
stands for the end of the text.

Some tokens are two words with only spaces and tabs between them. Their words are
found one at a time: when the second one is found, the first one is already the
last token of the scan, and this token is rewritten (`Scanner.take`).

A text with a place where no token starts has no tokens at all: it is refused at
the first such place.
-/

namespace Tudlo

/-! ### One token after the other -/

/-- What is left to read of a text. -/
structure Cursor where
  rest : List Char
  /-- The number of bytes before it. -/
  offset : Nat

/-- What comes next in a text. -/
inductive Next where
  | ending
  /-- No token starts at the byte offset. -/
  | fault (cause : LexicalCause) (offset : Nat)
  | token (kind : TokenKind) (span : Span) (after : Cursor)

namespace Cursor

/-- The cursor so many characters further on. -/
def skip : Nat → Cursor → Cursor
  | n + 1, ⟨c :: cs, offset⟩ => skip n ⟨cs, offset + c.utf8Size⟩
  | _, cursor => cursor

theorem length_rest_skip_le (n : Nat) (cursor : Cursor) :
    (cursor.skip n).rest.length ≤ cursor.rest.length := by
  fun_induction skip n cursor with
  | case1 n c cs offset ih => exact Nat.le_succ_of_le ih
  | case2 => exact Nat.le_refl _

/-- The next token, past all blanks and comments. -/
def next : Cursor → Next
  | ⟨[], _⟩ => .ending
  | ⟨c :: cs, offset⟩ =>
    match Lexeme.measure c cs with
    | .error cause => .fault cause offset
    | .ok extent =>
      let after := skip extent.more ⟨cs, offset + c.utf8Size⟩
      match extent.kind with
      | some kind => .token kind ⟨offset, after.offset⟩ after
      | none => next after
  termination_by cursor => cursor.rest.length
  decreasing_by exact Nat.lt_succ_of_le (length_rest_skip_le _ _)

theorem length_rest_lt_of_next {cursor after : Cursor} {kind : TokenKind} {span : Span}
    (h : cursor.next = .token kind span after) : after.rest.length < cursor.rest.length := by
  fun_induction next cursor with
  | case1 => cases h
  | case2 => cases h
  | case3 c cs offset extent _ here kind' _ =>
    obtain ⟨-, -, rfl⟩ := Next.token.inj h
    exact Nat.lt_succ_of_le (length_rest_skip_le _ _)
  | case4 c cs offset extent _ here _ ih =>
    exact Nat.lt_trans (ih h) (Nat.lt_succ_of_le (length_rest_skip_le _ _))

end Cursor

/-! ### All tokens -/

/-- A scan under way. -/
structure Scanner where
  /-- The tokens found so far. -/
  tokens : Array Token
  /-- Where the last of them is. -/
  previous : Span

namespace Scanner

/-- There is something between two words, and nothing but spaces and tabs. -/
def isInlineGap (gap : String) : Bool :=
  !gap.isEmpty && gap.toList.all Lexeme.isInline

/-- The token that the last one and the next one are together. -/
def joined? (s : Scanner) (source : String) (kind : TokenKind) (span : Span) : Option TokenKind :=
  if isInlineGap (Span.slice ⟨s.previous.stop, span.start⟩ source) then
    s.tokens.back?.bind fun last => Lexeme.pair? last.kind kind
  else none

/-- The scan with one token more, or with its last token made longer. -/
def take (s : Scanner) (source : String) (lines : LineIndex) (kind : TokenKind) (span : Span) :
    Scanner :=
  match s.joined? source kind span with
  | some joined =>
    let whole : Span := ⟨s.previous.start, span.stop⟩
    { tokens := s.tokens.modify (s.tokens.size - 1) fun last =>
        { last with kind := joined, lexeme := whole.slice source }
      previous := whole }
  | none =>
    { tokens := s.tokens.push ⟨kind, span.slice source, lines.position source span.start⟩
      previous := span }

/-- The scan at the end of the text. -/
def run (source : String) (lines : LineIndex) (s : Scanner) (cursor : Cursor) :
    Except LexicalError Scanner :=
  match _h : cursor.next with
  | .ending => .ok s
  | .fault cause offset => .error ⟨cause, lines.position source offset⟩
  | .token kind span after => run source lines (s.take source lines kind span) after
  termination_by cursor.rest.length
  decreasing_by exact Cursor.length_rest_lt_of_next ‹_›

end Scanner

/-- The tokens of a source text. -/
def scan (source : String) : Except LexicalError (List Token) := do
  let lines := LineIndex.ofSource source
  let s ← Scanner.run source lines ⟨#[], ⟨0, 0⟩⟩ ⟨source.toList, 0⟩
  let ending : Token := ⟨.ending, "", lines.position source source.utf8ByteSize⟩
  return (s.tokens.push ending).toList

end Tudlo
