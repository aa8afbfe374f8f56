/-!
# Positions

A *position* is a place in a source text: a line and a column, both counted
from one. Lines are ended by a line feed and by nothing else, and a column
counts characters, so a tab or a carriage return takes one column like any
other character.

The position with line and column zero, `Position.nowhere`, is outside every
text. It is where a complaint is placed when there is no token left to place
it at.
-/

namespace Tudlo

/-- A place in a source text. -/
structure Position where
  /-- The line, the first one being line one. -/
  line : Nat
  /-- The column, the first one of a line being column one. -/
  column : Nat
  deriving DecidableEq

namespace Position

/-- The position outside every text. -/
def nowhere : Position := ⟨0, 0⟩

/-- The position in words, as messages give it. -/
def describe (p : Position) : String :=
  "line " ++ p.line.repr ++ ", column " ++ p.column.repr

end Position

end Tudlo
