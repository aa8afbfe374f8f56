import Tudlo.Position

/-!
# Line indices

While a text is scanned, a place in it is known by its *byte offset*: the number
of bytes before it. Characters take one to four bytes, and only line feeds end
lines, so a position is not read off an offset at once.

A *line index* holds the offsets at which the lines of a text start. The line of
an offset is found among them by halving (`partitionPoint`), and its column is
counted in the stretch of text from the start of that line (`LineIndex.position`).
-/

namespace Tudlo

/-- A stretch of a text, from one byte offset up to another. -/
structure Span where
  /-- The number of bytes before the stretch. -/
  start : Nat
  /-- The number of bytes before what follows it. -/
  stop : Nat
  deriving DecidableEq

/-- The characters of the stretch. -/
def Span.slice (span : Span) (source : String) : String :=
  String.Pos.Raw.extract source ⟨span.start⟩ ⟨span.stop⟩

/-! ### Halving -/

section PartitionPoint

variable {α : Type} (p : α → Bool) (xs : Array α)

/-- The search for the partition point, when it is not before `low` and not after
    `high`. -/
def partitionPointIn (low high : Nat) (h : high ≤ xs.size) : Nat :=
  if hl : low < high then
    let middle := low + (high - low) / 2
    have hm : middle < high := by omega
    have := Nat.lt_of_lt_of_le hm h
    if p xs[middle] then partitionPointIn (middle + 1) high h
    else partitionPointIn low middle (Nat.le_of_lt this)
  else low
  termination_by high - low

/-- The number of the elements that satisfy `p`, when they come before all that do
    not. -/
def partitionPoint : Nat :=
  partitionPointIn p xs 0 xs.size (Nat.le_refl xs.size)

variable {p xs}

theorem partitionPointIn_le {low high : Nat} (hl : low ≤ high) (h : high ≤ xs.size) :
    partitionPointIn p xs low high h ≤ high := by
  fun_induction partitionPointIn p xs low high h with
  | case1 low high h _ middle hm _ _ ih => exact ih hm
  | case2 low high h _ middle hm _ _ ih => exact Nat.le_trans (ih (by omega)) (Nat.le_of_lt hm)
  | case3 => exact hl

theorem partitionPoint_le : partitionPoint p xs ≤ xs.size :=
  partitionPointIn_le (Nat.zero_le _) _

end PartitionPoint

/-! ### Lines -/

/-- The byte offsets of the line feeds among the characters, the first of which is
    at `offset`. -/
def lineFeeds (offset : Nat) : List Char → List Nat
  | [] => []
  | c :: cs =>
    if c = '\n' then offset :: lineFeeds (offset + c.utf8Size) cs
    else lineFeeds (offset + c.utf8Size) cs

/-- The byte offsets at which the lines of a text start: the first one where the
    text does, and every other one after a line feed. -/
def lineStarts (cs : List Char) : List Nat :=
  0 :: (lineFeeds 0 cs).map (· + 1)

/-- The lines of a text, by the byte offsets at which they start. -/
structure LineIndex where
  starts : Array Nat
  /-- Every text has a first line. -/
  nonempty : 0 < starts.size

namespace LineIndex

/-- The line index of a text. -/
def ofSource (source : String) : LineIndex where
  starts := (lineStarts source.toList).toArray
  nonempty := Nat.zero_lt_succ _

/-- The position of a byte offset in the text. -/
def position (index : LineIndex) (source : String) (offset : Nat) : Position :=
  let line := partitionPoint (· ≤ offset) index.starts
  have : line - 1 < index.starts.size :=
    Nat.lt_of_le_of_lt (Nat.sub_le_sub_right partitionPoint_le 1)
      (Nat.sub_lt index.nonempty Nat.one_pos)
  let start := index.starts[line - 1]
  ⟨line, (Span.slice ⟨start, offset⟩ source).length + 1⟩

end LineIndex

end Tudlo
