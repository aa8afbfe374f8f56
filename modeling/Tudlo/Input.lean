import Tudlo.Text.Blank

/-!
# Input

Input comes in lines. A line feed ends a line, and the carriage returns before
it do not belong to the line either (`inputLines`). What follows the last line
feed is a line of its own, unless it is empty.

A stream of bytes is input as far as it can be read as text: all of it when it
is UTF-8, and otherwise the lines before the first one that is not
(`readableText`).

A line holds fields separated by commas, and the blanks around a field do not
belong to it (`inputFields`). So an empty line holds one empty field.
-/

namespace Tudlo

/-- The stretches of `xs` between the elements equal to `mark`. There is one
    more of them than there are marks. -/
def splitAtEach {α : Type} [DecidableEq α] (mark : α) : List α → List (List α)
  | [] => [[]]
  | x :: xs =>
    if x = mark then [] :: splitAtEach mark xs
    else
      match splitAtEach mark xs with
      | [] => [[x]]
      | y :: ys => (x :: y) :: ys

/-- The characters `cs` without the carriage returns at the end. -/
def dropReturns (cs : List Char) : List Char :=
  (cs.reverse.dropWhile (· == '\r')).reverse

/-- The lines of a text. -/
def inputLines (text : String) : List String :=
  let pieces := splitAtEach '\n' text.toList
  let lines := if pieces.getLast? = some [] then pieces.dropLast else pieces
  lines.map fun cs => String.ofList (dropReturns cs)

/-- The lines that are UTF-8, each with a line feed, up to the first one that
    is not. -/
def readableLines : List (List UInt8) → String
  | [] => ""
  | bytes :: rest =>
    match String.fromUTF8? ⟨bytes.toArray⟩ with
    | some line => line ++ "\n" ++ readableLines rest
    | none => ""

/-- The bytes as text, as far as they are UTF-8. -/
def readableText (bytes : ByteArray) : String :=
  match String.fromUTF8? bytes with
  | some text => text
  | none => readableLines (splitAtEach 0x0A bytes.data.toList)

/-- The fields of a line. -/
def inputFields (line : String) : List (List Char) :=
  (splitAtEach ',' line.toList).map trimBlanks

/-! ### First facts -/

/-- There is always a stretch. -/
theorem splitAtEach_ne_nil {α : Type} [DecidableEq α] (mark : α) (xs : List α) :
    splitAtEach mark xs ≠ [] := by
  cases xs with
  | nil => simp [splitAtEach]
  | cons x xs =>
    rw [splitAtEach]
    split
    · simp
    · split <;> simp

/-- Text is readable to its end. -/
@[simp] theorem readableText_toUTF8 (text : String) : readableText text.toUTF8 = text := by
  have h : String.fromUTF8? text.toUTF8 = some text := dif_pos text.isValidUTF8
  rw [readableText, h]

end Tudlo
