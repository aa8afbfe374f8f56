import Mathlib.Data.List.DropRight
import Mathlib.Data.String.Basic
import Tudlo.Token.LineIndex

/-!
# Positions are counted

A line index gives to every byte offset the position that the text before it is
counted to have (`LineIndex.position_eq`). The offset is taken as the number of
bytes of that text, so that it falls between two characters.

* `Position.advance`, `Position.after`: the position after one more character, and
  after a stretch of text;
* `Position.following`: the position of what follows a text, counted in that text;
* `partitionPoint_eq`: halving finds where the elements that satisfy a predicate
  end, in an array that has them first.
-/

namespace Tudlo

open String (utf8Len)

/-! ### Walking over a text -/

namespace Position

/-- The position of the first character of a text. -/
def start : Position := ⟨1, 1⟩

/-- The position of the character that follows `c`, when `c` is at `p`. -/
def advance (p : Position) (c : Char) : Position :=
  if c = '\n' then ⟨p.line + 1, 1⟩ else ⟨p.line, p.column + 1⟩

/-- The position of what follows the characters `cs`, when they start at `p`. -/
def after (p : Position) (cs : List Char) : Position :=
  cs.foldl advance p

@[simp] theorem after_nil (p : Position) : p.after [] = p := rfl

@[simp] theorem after_cons (p : Position) (c : Char) (cs : List Char) :
    p.after (c :: cs) = (p.advance c).after cs := rfl

/-- Walking over two stretches of text is walking over the first, then over
    the second. -/
@[simp] theorem after_append (p : Position) (cs ds : List Char) :
    p.after (cs ++ ds) = (p.after cs).after ds :=
  List.foldl_append

/-- The position of what follows the characters `cs` at the start of a text: one
    line more than there are line feeds, and one column more than there are
    characters since the last of them. -/
def following (cs : List Char) : Position :=
  ⟨1 + cs.count '\n', 1 + (cs.rtakeWhile (· != '\n')).length⟩

/-- Walking over a text from its start leads to the position that is counted. -/
theorem after_start (cs : List Char) : start.after cs = following cs := by
  induction cs using List.reverseRecOn with
  | nil => rfl
  | append_singleton cs c ih =>
    rw [after_append, ih, after_cons, after_nil, advance]
    by_cases hc : c = '\n'
    · simp [hc, following, Nat.add_assoc]
    · simp [hc, following, Nat.add_assoc]

/-- Walking on leads to the position that is counted in all of the text. -/
theorem after_following (before text : List Char) :
    (following before).after text = following (before ++ text) := by
  rw [← after_start, ← after_append, after_start]

end Position

/-! ### Byte offsets -/

/-- A stretch of text is cut out by its byte offsets. -/
theorem Span.slice_eq {source : String} {before text after : List Char}
    (h : source.toList = before ++ text ++ after) :
    Span.slice ⟨utf8Len before, utf8Len (before ++ text)⟩ source = String.ofList text := by
  rw [← String.ofList_toList (s := source), h, String.utf8Len_append]
  exact String.extract_of_valid before text after

/-! ### Halving -/

section PartitionPoint

variable {α : Type} {p : α → Bool} {xs : Array α} {front back : List α}

/-- In an array that has first the elements that satisfy `p`, these are the ones
    before the others. -/
theorem lt_length_iff_of_append (hxs : xs.toList = front ++ back) (hf : ∀ x ∈ front, p x = true)
    (hb : ∀ x ∈ back, p x = false) {i : Nat} (hi : i < xs.size) :
    p xs[i] = true ↔ i < front.length := by
  have hx : xs[i]? = some xs[i] := Array.getElem?_eq_getElem hi
  rw [← Array.getElem?_toList, hxs] at hx
  constructor
  · intro hp
    by_contra hn
    rw [List.getElem?_append_right (Nat.le_of_not_lt hn)] at hx
    rw [hb _ (List.mem_of_getElem? hx)] at hp
    cases hp
  · intro hlt
    rw [List.getElem?_append_left hlt] at hx
    exact hf _ (List.mem_of_getElem? hx)

/-- Between `low` and `high`, the partition point is found. -/
theorem partitionPointIn_eq (hxs : xs.toList = front ++ back) (hf : ∀ x ∈ front, p x = true)
    (hb : ∀ x ∈ back, p x = false) {low high : Nat} (h : high ≤ xs.size)
    (hlow : low ≤ front.length) (hhigh : front.length ≤ high) :
    partitionPointIn p xs low high h = front.length := by
  fun_induction partitionPointIn p xs low high h with
  | case1 low high h _ middle _ hm hp ih =>
    exact ih ((lt_length_iff_of_append hxs hf hb hm).1 hp) hhigh
  | case2 low high h _ middle _ hm hp ih =>
    exact ih hlow (Nat.le_of_not_lt fun hlt => hp ((lt_length_iff_of_append hxs hf hb hm).2 hlt))
  | case3 low high h hl => exact Nat.le_antisymm hlow (hhigh.trans (Nat.le_of_not_lt hl))

/-- Halving counts the elements that satisfy `p`, when the array has them first. -/
theorem partitionPoint_eq (hxs : xs.toList = front ++ back) (hf : ∀ x ∈ front, p x = true)
    (hb : ∀ x ∈ back, p x = false) : partitionPoint p xs = front.length := by
  have hs : front.length ≤ xs.size := by
    rw [← Array.length_toList, hxs, List.length_append]
    exact Nat.le_add_right _ _
  exact partitionPointIn_eq hxs hf hb _ (Nat.zero_le _) hs

end PartitionPoint

/-! ### Line feeds -/

theorem lineFeeds_append (offset : Nat) (cs ds : List Char) :
    lineFeeds offset (cs ++ ds) = lineFeeds offset cs ++ lineFeeds (offset + utf8Len cs) ds := by
  induction cs generalizing offset with
  | nil => rfl
  | cons c cs ih =>
    have ho : offset + utf8Len (c :: cs) = offset + c.utf8Size + utf8Len cs := by
      rw [String.utf8Len_cons]
      omega
    rw [List.cons_append, lineFeeds, lineFeeds, ih, ho]
    split <;> rfl

/-- The line feeds of a text are inside it. -/
theorem mem_lineFeeds {offset f : Nat} {cs : List Char} (h : f ∈ lineFeeds offset cs) :
    offset ≤ f ∧ f < offset + utf8Len cs := by
  induction cs generalizing offset with
  | nil => cases h
  | cons c cs ih =>
    have hc := c.utf8Size_pos
    rw [String.utf8Len_cons]
    rw [lineFeeds] at h
    split at h
    · rcases List.mem_cons.1 h with rfl | h
      · omega
      · have := ih h
        omega
    · have := ih h
      omega

theorem length_lineFeeds (offset : Nat) (cs : List Char) :
    (lineFeeds offset cs).length = cs.count '\n' := by
  induction cs generalizing offset with
  | nil => rfl
  | cons c cs ih =>
    rw [lineFeeds, List.count_cons]
    split
    · rename_i hc
      simp [ih, hc]
    · rename_i hc
      simp [ih, hc]

/-! ### Lines -/

/-- The line starts of a text are those of its first part, and those after it. -/
theorem lineStarts_append (before after : List Char) :
    lineStarts (before ++ after) =
      lineStarts before ++ (lineFeeds (utf8Len before) after).map (· + 1) := by
  rw [lineStarts, lineFeeds_append, List.map_append, Nat.zero_add]
  rfl

theorem length_lineStarts (cs : List Char) : (lineStarts cs).length = 1 + cs.count '\n' := by
  rw [lineStarts, List.length_cons, List.length_map, length_lineFeeds, Nat.add_comm]

/-- No line of a text starts after its end. -/
theorem le_of_mem_lineStarts {cs : List Char} {start : Nat} (h : start ∈ lineStarts cs) :
    start ≤ utf8Len cs := by
  rcases List.mem_cons.1 h with rfl | h
  · exact Nat.zero_le _
  · obtain ⟨f, hf, rfl⟩ := List.mem_map.1 h
    have := (mem_lineFeeds hf).2
    omega

/-- The last line of a text starts after its last line feed. -/
theorem getLast?_lineStarts (cs : List Char) :
    (lineStarts cs).getLast? = some (utf8Len (cs.rdropWhile (· != '\n'))) := by
  -- By the last character: only a line feed there starts a new line.
  induction cs using List.reverseRecOn with
  | nil => rfl
  | append_singleton cs c ih =>
    rw [lineStarts_append]
    by_cases hc : c = '\n'
    · subst hc
      rw [List.rdropWhile_concat_neg _ _ _ (by simp), String.utf8Len_append]
      exact List.getLast?_concat
    · rw [List.rdropWhile_concat_pos _ _ _ (by simpa using hc), ← ih]
      simp [lineFeeds, hc]

/-- The line of a position, when the line starts that are not after the offset are
    known, and the column counts from the last of them. -/
theorem LineIndex.position_of_line {index : LineIndex} {source : String} {offset line start : Nat}
    (hl : partitionPoint (· ≤ offset) index.starts = line)
    (hs : index.starts[line - 1]? = some start) :
    index.position source offset = ⟨line, (Span.slice ⟨start, offset⟩ source).length + 1⟩ := by
  subst hl
  obtain ⟨_, rfl⟩ := Array.getElem?_eq_some_iff.1 hs
  rfl

/-- The position of a byte offset is the one that is counted in the text before it. -/
theorem LineIndex.position_eq {source : String} {before after : List Char}
    (h : source.toList = before ++ after) :
    (ofSource source).position source (utf8Len before) = .following before := by
  have hstarts : (ofSource source).starts.toList =
      lineStarts before ++ (lineFeeds (utf8Len before) after).map (· + 1) := by
    rw [← lineStarts_append, ← h]
    rfl
  -- The lines that start before the offset, or at it, are those of the text before it.
  have hline : partitionPoint (· ≤ utf8Len before) (ofSource source).starts =
      (lineStarts before).length := by
    refine partitionPoint_eq hstarts (fun start hs => ?_) fun start hs => ?_
    · exact decide_eq_true (le_of_mem_lineStarts hs)
    · obtain ⟨f, hf, rfl⟩ := List.mem_map.1 hs
      have := (mem_lineFeeds hf).1
      exact decide_eq_false (by omega)
  -- The last of them starts after the last line feed, and the column is counted from there.
  have hstart : (ofSource source).starts[(lineStarts before).length - 1]? =
      some (utf8Len (before.rdropWhile (· != '\n'))) := by
    rw [← getLast?_lineStarts, List.getLast?_eq_getElem?, ← Array.getElem?_toList, hstarts,
      List.getElem?_append_left (Nat.sub_lt (by simp [lineStarts]) Nat.one_pos)]
  have hbefore : before.rdropWhile (· != '\n') ++ before.rtakeWhile (· != '\n') = before :=
    List.rdropWhile_append_rtakeWhile
  have hslice : Span.slice ⟨utf8Len (before.rdropWhile (· != '\n')), utf8Len before⟩ source =
      String.ofList (before.rtakeWhile (· != '\n')) := by
    have hs := Span.slice_eq (hbefore.symm ▸ h)
    rwa [hbefore] at hs
  rw [position_of_line hline hstart, hslice, String.length_ofList, length_lineStarts,
    Nat.add_comm _ 1]
  rfl

end Tudlo
