import Mathlib.Data.List.Forall2
import Mathlib.Data.List.TakeWhile
import Tudlo.Input

/-!
# Lines that are read one by one

A stream of text is read line by line: each reading takes all up to the next line feed,
with the line feed, or what is left when there is none, and at the end nothing is left to
take (`nextReading`, `readings`). What is done to the line endings is another matter. All
line feeds and carriage returns at the end can be taken away (`dropEndings`), or the line
feed alone (`dropFeed`).

* `strippedLines`, `plainLines`: the lines that are left in the one way and in the other;
* `inputLines_eq_strippedLines`: the lines of input are those without any endings;
* `inputFields_dropEndings`, `inputFields_dropFeed`: either way a line has the fields that
  the reading has, as what is taken away is blank and holds no comma.
-/

namespace Tudlo

/-! ### Stretches between marks -/

section Stretches

variable {α : Type} [DecidableEq α] {mark : α} {xs : List α}

theorem splitAtEach_of_not_mem (h : mark ∉ xs) : splitAtEach mark xs = [xs] := by
  induction xs with
  | nil => rfl
  | cons x xs ih =>
    rw [List.mem_cons, not_or] at h
    rw [splitAtEach, if_neg (Ne.symm h.1), ih h.2]

theorem splitAtEach_append_mark (h : mark ∉ xs) (ys : List α) :
    splitAtEach mark (xs ++ mark :: ys) = xs :: splitAtEach mark ys := by
  induction xs with
  | nil => rw [List.nil_append, splitAtEach, if_pos rfl]
  | cons x xs ih =>
    rw [List.mem_cons, not_or] at h
    rw [List.cons_append, splitAtEach, if_neg (Ne.symm h.1), ih h.2]

/-- What is put at the end, and has no mark, goes to the last of the stretches. The others
    stay as they are. -/
theorem splitAtEach_append_of_not_mem {ys : List α} (h : mark ∉ ys) (xs : List α) :
    List.Forall₂ (fun a b => b = a ∨ b = a ++ ys) (splitAtEach mark xs)
      (splitAtEach mark (xs ++ ys)) := by
  induction xs with
  | nil =>
    rw [List.nil_append, splitAtEach_of_not_mem h]
    exact .cons (.inr rfl) .nil
  | cons x xs ih =>
    rw [List.cons_append, splitAtEach, splitAtEach]
    split
    · exact .cons (.inl rfl) ih
    · generalize splitAtEach mark xs = as, splitAtEach mark (xs ++ ys) = bs at ih ⊢
      cases ih with
      | nil => exact .cons (.inl rfl) .nil
      | cons hab hr =>
        refine .cons ?_ hr
        rcases hab with rfl | rfl
        · exact .inl rfl
        · exact .inr rfl

end Stretches

/-! ### Readings -/

/-- What one reading takes, and what is left. -/
def nextReading : List Char → List Char × List Char
  | [] => ([], [])
  | c :: cs =>
    if c = '\n' then ([c], cs)
    else (c :: (nextReading cs).1, (nextReading cs).2)

theorem length_nextReading_le (cs : List Char) : (nextReading cs).2.length ≤ cs.length := by
  induction cs with
  | nil => exact Nat.le_refl _
  | cons c cs ih =>
    rw [nextReading]
    split
    · exact Nat.le_succ _
    · exact Nat.le_succ_of_le ih

/-- A reading takes something as long as there is something. -/
theorem length_nextReading_lt (c : Char) (cs : List Char) :
    (nextReading (c :: cs)).2.length < (c :: cs).length := by
  rw [nextReading]
  split
  · exact Nat.lt_succ_self _
  · exact Nat.lt_succ_of_le (length_nextReading_le cs)

/-- All readings of a text, until nothing is left. -/
def readings : List Char → List (List Char)
  | [] => []
  | c :: cs => (nextReading (c :: cs)).1 :: readings (nextReading (c :: cs)).2
  termination_by cs => cs.length
  decreasing_by exact length_nextReading_lt c cs

/-- A text is empty, or one line without a line feed, or a line with a line feed and the
    text after it. -/
theorem text_induction {P : List Char → Prop} (nil : P [])
    (last : ∀ cs, cs ≠ [] → '\n' ∉ cs → P cs)
    (line : ∀ cs rest, '\n' ∉ cs → P rest → P (cs ++ '\n' :: rest)) (cs : List Char) : P cs := by
  induction hn : cs.length using Nat.strongRecOn generalizing cs with
  | ind n ih =>
    -- The first line feed, if there is one, leaves a shorter text behind it.
    by_cases hm : '\n' ∈ cs
    · obtain ⟨as, rest, rfl, ha⟩ := List.eq_append_cons_of_mem hm
      have hlt : rest.length < n := by
        rw [← hn, List.length_append, List.length_cons]
        omega
      exact line as rest ha (ih _ hlt rest rfl)
    · by_cases hc : cs = []
      · rwa [hc]
      · exact last cs hc hm

theorem nextReading_of_not_mem {cs : List Char} (h : '\n' ∉ cs) : nextReading cs = (cs, []) := by
  induction cs with
  | nil => rfl
  | cons c cs ih =>
    rw [List.mem_cons, not_or] at h
    rw [nextReading, if_neg (Ne.symm h.1), ih h.2]

theorem nextReading_line {cs : List Char} (h : '\n' ∉ cs) (rest : List Char) :
    nextReading (cs ++ '\n' :: rest) = (cs ++ ['\n'], rest) := by
  induction cs with
  | nil => rw [List.nil_append, nextReading, if_pos rfl, List.nil_append]
  | cons c cs ih =>
    rw [List.mem_cons, not_or] at h
    rw [List.cons_append, nextReading, if_neg (Ne.symm h.1), ih h.2, List.cons_append]

theorem readings_of_ne_nil {cs : List Char} (h : cs ≠ []) :
    readings cs = (nextReading cs).1 :: readings (nextReading cs).2 := by
  cases cs with
  | nil => exact absurd rfl h
  | cons c cs => rw [readings]

theorem readings_of_not_mem {cs : List Char} (hc : cs ≠ []) (h : '\n' ∉ cs) :
    readings cs = [cs] := by
  rw [readings_of_ne_nil hc, nextReading_of_not_mem h, readings]

theorem readings_line {cs : List Char} (h : '\n' ∉ cs) (rest : List Char) :
    readings (cs ++ '\n' :: rest) = (cs ++ ['\n']) :: readings rest := by
  rw [readings_of_ne_nil (by simp), nextReading_line h]

/-! ### Line endings -/

/-- Whether the character belongs to the ending of a line. -/
def isLineEnd (c : Char) : Bool :=
  c == '\n' || c == '\r'

/-- The characters without the line feeds and carriage returns at the end. -/
def dropEndings (cs : List Char) : List Char :=
  (cs.reverse.dropWhile isLineEnd).reverse

/-- The characters without a single line feed at the end, if there is one. -/
def dropFeed (cs : List Char) : List Char :=
  if cs.getLast? = some '\n' then cs.dropLast else cs

/-- The lines of a text without all that belongs to their endings. -/
def strippedLines (text : String) : List String :=
  (readings text.toList).map fun cs => String.ofList (dropEndings cs)

/-- The lines of a text without the line feeds that end them. -/
def plainLines (text : String) : List String :=
  (readings text.toList).map fun cs => String.ofList (dropFeed cs)

theorem dropEndings_concat (cs : List Char) : dropEndings (cs ++ ['\n']) = dropEndings cs := by
  rw [dropEndings, List.reverse_concat, List.dropWhile_cons_of_pos rfl, dropEndings]

/-- Without line feeds, only carriage returns are taken away. -/
theorem dropEndings_of_not_mem {cs : List Char} (h : '\n' ∉ cs) :
    dropEndings cs = dropReturns cs := by
  have hd : ∀ ds : List Char, '\n' ∉ ds → ds.dropWhile isLineEnd = ds.dropWhile (· == '\r') := by
    intro ds hn
    induction ds with
    | nil => rfl
    | cons d ds ih =>
      rw [List.mem_cons, not_or] at hn
      have he : isLineEnd d = (d == '\r') := by
        rw [isLineEnd, beq_false_of_ne (Ne.symm hn.1), Bool.false_or]
      rw [List.dropWhile_cons, List.dropWhile_cons, he, ih hn.2]
  rw [dropEndings, dropReturns, hd _ (by rwa [List.mem_reverse])]

/-! ### The lines of input -/

/-- The lines of a text with the carriage returns that are at their ends. -/
def rawLines (cs : List Char) : List (List Char) :=
  let pieces := splitAtEach '\n' cs
  if pieces.getLast? = some [] then pieces.dropLast else pieces

theorem rawLines_of_not_mem {cs : List Char} (hc : cs ≠ []) (h : '\n' ∉ cs) :
    rawLines cs = [cs] := by
  rw [rawLines, splitAtEach_of_not_mem h]
  exact if_neg fun hl => hc (Option.some.inj hl)

theorem rawLines_line {cs : List Char} (h : '\n' ∉ cs) (rest : List Char) :
    rawLines (cs ++ '\n' :: rest) = cs :: rawLines rest := by
  have hne := splitAtEach_ne_nil '\n' rest
  rw [rawLines, rawLines, splitAtEach_append_mark h,
    List.getLast?_cons_of_ne_nil hne, List.dropLast_cons_of_ne_nil hne]
  split <;> rfl

/-- Reading line by line and taking the endings away gives the lines of input. -/
theorem inputLines_eq_strippedLines (text : String) : inputLines text = strippedLines text := by
  show (rawLines text.toList).map _ = (readings text.toList).map _
  induction text.toList using text_induction with
  | nil => rw [readings]; rfl
  | last cs hc h =>
    rw [rawLines_of_not_mem hc h, readings_of_not_mem hc h, List.map_singleton,
      List.map_singleton, dropEndings_of_not_mem h]
  | line cs rest h ih =>
    rw [rawLines_line h, readings_line h, List.map_cons, List.map_cons, ih, dropEndings_concat,
      dropEndings_of_not_mem h]

/-! ### Fields -/

theorem trimBlanks_append {ys : List Char} (h : ∀ c ∈ ys, isBlank c = true) (xs : List Char) :
    trimBlanks (xs ++ ys) = trimBlanks xs := by
  rw [trimBlanks, trimBlanks, List.dropWhile_append]
  split
  · rename_i hx
    rw [List.dropWhile_eq_nil_iff.2 h, List.isEmpty_iff.1 hx]
  · rw [List.reverse_append, List.dropWhile_append_of_pos]
    intro c hc
    exact h c (List.mem_reverse.1 hc)

theorem inputFields_append {ys : List Char} (h : ∀ c ∈ ys, isLineEnd c = true) (xs : List Char) :
    inputFields (String.ofList (xs ++ ys)) = inputFields (String.ofList xs) := by
  have hb : ∀ c ∈ ys, isBlank c = true := by
    intro c hc
    rcases Bool.or_eq_true_iff.1 (h c hc) with hn | hr
    · rw [eq_of_beq hn]
      rfl
    · rw [eq_of_beq hr]
      rfl
  have hcomma : ',' ∉ ys := fun hm => absurd (h _ hm) (by decide)
  have hf : List.Forall₂ (· = ·) ((splitAtEach ',' xs).map trimBlanks)
      ((splitAtEach ',' (xs ++ ys)).map trimBlanks) := by
    rw [List.forall₂_map_left_iff, List.forall₂_map_right_iff]
    refine (splitAtEach_append_of_not_mem hcomma xs).imp ?_
    rintro a _ (rfl | rfl)
    · rfl
    · exact (trimBlanks_append hb a).symm
  rw [List.forall₂_eq_eq_eq] at hf
  rw [inputFields, inputFields, String.toList_ofList, String.toList_ofList, hf]

/-- However many line feeds and carriage returns are taken away, the fields are the same. -/
theorem inputFields_dropEndings (cs : List Char) :
    inputFields (String.ofList (dropEndings cs)) = inputFields (String.ofList cs) := by
  have hcs : cs = dropEndings cs ++ (cs.reverse.takeWhile isLineEnd).reverse := by
    rw [dropEndings, ← List.reverse_append, List.takeWhile_append_dropWhile, List.reverse_reverse]
  conv_rhs => rw [hcs]
  refine (inputFields_append ?_ _).symm
  intro c hc
  exact List.mem_takeWhile_imp (List.mem_reverse.1 hc)

theorem inputFields_dropFeed (cs : List Char) :
    inputFields (String.ofList (dropFeed cs)) = inputFields (String.ofList cs) := by
  rw [dropFeed]
  split
  · rename_i hl
    have hcs : cs = cs.dropLast ++ ['\n'] := (List.dropLast_append_getLast? _ hl).symm
    conv_rhs => rw [hcs]
    refine (inputFields_append ?_ _).symm
    intro c hc
    rw [List.mem_singleton.1 hc]
    rfl
  · rfl

/-- Line by line, both ways of taking endings away leave the same fields. -/
theorem fields_plainLines (text : String) :
    (plainLines text).map inputFields = (strippedLines text).map inputFields := by
  rw [plainLines, strippedLines, List.map_map, List.map_map]
  refine List.map_congr_left fun cs _ => ?_
  exact (inputFields_dropFeed cs).trans (inputFields_dropEndings cs).symm

end Tudlo
