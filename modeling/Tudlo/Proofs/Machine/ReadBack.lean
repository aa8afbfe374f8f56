import Tudlo.Proofs.Decimal.Digits
import Tudlo.Proofs.Input.Lines
import Tudlo.Proofs.Machine.Receiving

/-!
# Reading back what is printed

The texts of values can be entered again. A line of *entries* has for each name the text of
a value, with blanks around it, and commas between them (`Entry.line`). The text of an
integer or a truth value has neither commas nor blanks, and for a character it is asked
(`ScalarType.Enters`). So the line has a field for each entry, which is just the text
(`inputFields_line`), and the text is read as the value (`ScalarType.Enters.read?_display`).

* `Statement.exec_read_entries`: each of the names then has its value.
-/

namespace Tudlo

/-! ### Texts that are read back -/

/-- The value is of the kind that the type stands for, and its text can be a field. -/
inductive ScalarType.Enters : ScalarType → Value → Prop
  | integer (n : Int64) : Enters .integer (.integer n)
  | boolean (b : Bool) : Enters .boolean (.boolean b)
  | character {c : Char} : c ≠ ',' → isBlank c = false → Enters .character (.character c)

/-- The character can be anywhere in a field. -/
def inField (c : Char) : Bool :=
  c != ',' && !isBlank c

theorem inField_of_isDigit {c : Char} (h : c.isDigit = true) : inField c = true := by
  have hb : isBlank c = false := by
    have hdigit := Numeral.toNat_of_isDigit h
    have hcodes : ∀ code ∈ blankCodes, code < 48 ∨ 57 < code := by decide
    rw [isBlank, List.contains_eq_mem, decide_eq_false_iff_not]
    intro hm
    have := hcodes _ hm
    omega
  have hc : c ≠ ',' := by
    rintro rfl
    cases h
  rw [inField, hb, bne_iff_ne.2 hc]
  rfl

theorem inField_repr {n : Int} {c : Char} (h : c ∈ n.repr.toList) : inField c = true := by
  have hd {k : Nat} (hc : c ∈ Nat.toDigits 10 k) : inField c = true :=
    inField_of_isDigit ((Numeral.isDigits_toDigits k).2 c hc)
  cases n with
  | ofNat n =>
    rw [show (Int.ofNat n).repr = n.repr from rfl, Numeral.toList_repr] at h
    exact hd h
  | negSucc n =>
    rw [show (Int.negSucc n).repr = "-" ++ (n + 1).repr from rfl, String.toList_append,
      Numeral.toList_repr] at h
    rcases List.mem_append.1 h with hm | hc
    · rw [List.mem_singleton.1 hm]
      decide
    · exact hd hc

namespace ScalarType.Enters

variable {t : ScalarType} {v : Value}

/-- Nothing in the text has a meaning for lines and fields. -/
theorem inField_display (h : t.Enters v) : ∀ c ∈ v.display.toList, inField c = true := by
  cases h with
  | integer n => exact fun c => inField_repr
  | boolean b => cases b <;> exact List.all_eq_true.1 (by decide)
  | character hc hb =>
    rw [Value.display, String.toList_singleton]
    intro d hd
    rw [List.mem_singleton.1 hd, inField, hb, bne_iff_ne.2 hc]
    rfl

/-- The text of a value is read as this value. -/
theorem read?_display (h : t.Enters v) : t.read? v.display.toList = some v := by
  cases h with
  | integer n =>
    show (Numeral.integer? n.toInt.repr.toList).bind _ = _
    rw [Numeral.integer?_repr, Option.bind_some, Integer.narrow?_toInt]
    rfl
  | boolean b => cases b <;> decide
  | character => rw [Value.display, String.toList_singleton, ScalarType.read?]

end ScalarType.Enters

/-! ### Lines of entries -/

/-- What is entered for one name: a value that suits its type, and the blanks around the
    text of the value. -/
structure Entry where
  /-- The name that the value is for. -/
  name : String
  /-- The type that the name is declared with. -/
  type : ScalarType
  /-- The value. -/
  value : Value
  /-- The blanks before the text. -/
  before : List Char
  /-- The blanks after the text. -/
  after : List Char
  enters : type.Enters value
  blank_before : ∀ c ∈ before, isBlank c = true
  blank_after : ∀ c ∈ after, isBlank c = true

/-- The entry as it is written. -/
def Entry.text (e : Entry) : List Char :=
  e.before ++ e.value.display.toList ++ e.after

/-- The entries as they are written on one line. -/
def Entry.line (entries : List Entry) : String :=
  String.ofList (List.intercalate [','] (entries.map Entry.text))

theorem dropWhile_isBlank_of_not {cs : List Char} (h : ∀ c ∈ cs, isBlank c = false) :
    cs.dropWhile isBlank = cs := by
  cases cs with
  | nil => rfl
  | cons c cs => rw [List.dropWhile_cons_of_neg (by simp [h c List.mem_cons_self])]

/-- Only the blanks around a text without blanks are taken away. -/
theorem trimBlanks_of_surrounded {before cs after : List Char}
    (hb : ∀ c ∈ before, isBlank c = true) (h : ∀ c ∈ cs, isBlank c = false)
    (ha : ∀ c ∈ after, isBlank c = true) : trimBlanks (before ++ cs ++ after) = cs := by
  rw [trimBlanks_append ha, trimBlanks, List.dropWhile_append_of_pos hb,
    dropWhile_isBlank_of_not h, dropWhile_isBlank_of_not, List.reverse_reverse]
  exact fun c hc => h c (List.mem_reverse.1 hc)

/-- What was put together with marks between is taken apart again at the marks. -/
theorem splitAtEach_intercalate {α : Type} [DecidableEq α] {mark : α} {parts : List (List α)}
    (hne : parts ≠ []) (h : ∀ part ∈ parts, mark ∉ part) :
    splitAtEach mark (List.intercalate [mark] parts) = parts := by
  induction parts with
  | nil => exact absurd rfl hne
  | cons part parts ih =>
    obtain ⟨hp, h⟩ := List.forall_mem_cons.1 h
    cases parts with
    | nil => rw [List.intercalate_singleton, splitAtEach_of_not_mem hp]
    | cons next parts =>
      rw [List.intercalate_cons_cons, List.append_assoc, List.singleton_append,
        splitAtEach_append_mark hp, ih (List.cons_ne_nil _ _) h]

namespace Entry

theorem comma_notMem_text (e : Entry) : ',' ∉ e.text := by
  have hblank {cs : List Char} (h : ∀ c ∈ cs, isBlank c = true) : ',' ∉ cs :=
    fun hm => absurd (h _ hm) (by decide)
  have hd : ',' ∉ e.value.display.toList :=
    fun hm => absurd (e.enters.inField_display _ hm) (by decide)
  rw [text, List.mem_append, List.mem_append]
  rintro ((hm | hm) | hm)
  · exact hblank e.blank_before hm
  · exact hd hm
  · exact hblank e.blank_after hm

theorem trimBlanks_text (e : Entry) : trimBlanks e.text = e.value.display.toList := by
  refine trimBlanks_of_surrounded e.blank_before (fun c hc => ?_) e.blank_after
  have hf := (Bool.and_eq_true_iff.1 (e.enters.inField_display c hc)).2
  rwa [Bool.not_eq_true'] at hf

/-- The fields of a line are the texts of its values. -/
theorem inputFields_line {entries : List Entry} (h : entries ≠ []) :
    inputFields (line entries) = entries.map fun e => e.value.display.toList := by
  have hne : entries.map text ≠ [] := by simpa using h
  have hcomma : ∀ part ∈ entries.map text, ',' ∉ part :=
    List.forall_mem_map.2 fun e _ => e.comma_notMem_text
  rw [inputFields, line, String.toList_ofList, splitAtEach_intercalate hne hcomma, List.map_map]
  exact List.map_congr_left fun e _ => e.trimBlanks_text

end Entry

/-! ### Receiving entries -/

namespace Environment

variable {env : Environment} {entries : List Entry}

/-- The name of every entry stands for a variable of the type of the entry. -/
def Expects (env : Environment) (entries : List Entry) : Prop :=
  ∀ e ∈ entries, ∃ v, env.find? e.name = some v ∧ v.type = e.type

theorem Expects.reads (h : env.Expects entries) {e : Entry} (he : e ∈ entries) :
    env.Reads (e.name, e.value.display.toList) (e.name, e.value) := by
  obtain ⟨v, hv, ht⟩ := h e he
  obtain ⟨k, hk⟩ := find?_eq_some_iff.1 hv
  have hr : v.type.read? e.value.display.toList = some e.value := by
    rw [ht, e.enters.read?_display]
  exact ⟨rfl, k, v, hk, hr, ScalarType.kind_of_read? hr⟩

/-- A field is received as one value only. -/
theorem Reads.unique {p : String × List Char} {q r : String × Value} (hq : env.Reads p q)
    (hr : env.Reads p r) : q = r := by
  obtain ⟨hqn, k, v, hv, hqv, -⟩ := hq
  obtain ⟨hrn, j, w, hw, hrv, -⟩ := hr
  obtain ⟨-, rfl⟩ := hv.unique hw
  exact Prod.ext (hqn.trans hrn.symm) (Option.some.inj (hqv.symm.trans hrv))

/-- What the names receive are the values of the entries. -/
theorem Expects.values_eq (h : env.Expects entries) {values : List (String × Value)}
    (hr : List.Forall₂ env.Reads (entries.map fun e => (e.name, e.value.display.toList)) values) :
    values = entries.map fun e => (e.name, e.value) := by
  induction entries generalizing values with
  | nil =>
    cases hr
    rfl
  | cons e entries ih =>
    cases hr with
    | cons hq hr =>
      have he : env.Reads _ (e.name, e.value) := h.reads List.mem_cons_self
      rw [List.map_cons, hq.unique he, ih (fun e he => h e (List.mem_cons_of_mem _ he)) hr]

/-- Once the values are entered, each name has its own one, with the type as it was. -/
theorem Expects.find?_of_entered (h : env.Expects entries) {env' : Environment}
    (hn : (entries.map Entry.name).Nodup)
    (he : env.Entered (entries.map fun e => (e.name, e.value)) env') {e : Entry}
    (hm : e ∈ entries) : env'.find? e.name = some ⟨e.type, e.value⟩ := by
  obtain ⟨v, hv, ht⟩ := h e hm
  obtain ⟨k, hk⟩ := find?_eq_some_iff.1 hv
  obtain ⟨before, after, rfl⟩ := List.append_of_mem hm
  -- No later entry has the same name.
  have hlast : e.name ∉ (after.map fun e => (e.name, e.value)).map Prod.fst := by
    rw [List.map_append, List.map_cons, List.nodup_append, List.nodup_cons] at hn
    rw [List.map_map]
    exact hn.2.1.1
  have hslot := he.written (by rw [List.map_append, List.map_cons]) hlast hk
  obtain ⟨v', hk', -⟩ := hk.of_shape he.shape_eq
  rw [find?_eq_some_iff]
  refine ⟨k, ?_, hk'.2⟩
  rw [hslot, ht]

end Environment

/-- When the next line is one of entries for names that all differ, reading into the names
    succeeds, and then each of them has the value of its entry. -/
theorem Statement.exec_read_entries (limit : Nat) (pos : Position) {m : Machine}
    {entries : List Entry} {rest : List String} (hne : entries ≠ [])
    (hn : (entries.map Entry.name).Nodup) (he : m.env.Expects entries)
    (hi : m.input = Entry.line entries :: rest) :
    ∃ m', (Statement.read (entries.map Entry.name) pos).exec limit m = .ok () m' ∧
      m'.input = rest ∧ m'.output = m.output ∧
      ∀ e ∈ entries, ∀ p, (Expr.var e.name p).eval m'.env = .ok e.value m'.env := by
  have hf := Entry.inputFields_line hne
  have hz : (entries.map Entry.name).zip (inputFields (Entry.line entries)) =
      entries.map fun e => (e.name, e.value.display.toList) := by
    rw [hf, List.zip_map']
  have hc : (inputFields (Entry.line entries)).length = (entries.map Entry.name).length := by
    rw [hf, List.length_map, List.length_map]
  have hr : ∀ p ∈ (entries.map Entry.name).zip (inputFields (Entry.line entries)), ∀ cause,
      ¬ m.env.Refuses p cause := by
    rw [hz]
    exact List.forall_mem_map.2 fun e hm => (he.reads hm).not_refuses
  have hstep : (Statement.read (entries.map Entry.name) pos).exec limit m =
      Exec.receive (entries.map Entry.name) pos (m.emit (.executing pos)) := by
    rw [Statement.exec, bind_apply_of_ok (Exec.record_apply (.executing pos) m)]
  rw [hstep]
  obtain ⟨values, env, hv, hw, hx⟩ := Exec.receive_of_reads (m := m.emit (.executing pos)) hi hc hr
  rw [hz] at hv
  rw [he.values_eq hv] at hw
  refine ⟨_, hx, rfl, rfl, fun e hm p => ?_⟩
  exact Expr.eval_var_of_find? (he.find?_of_entered hn hw hm) p

/-- Entries of the least integer, the null character, a truth value that is also a keyword,
    and the sign of negative numbers. -/
def Entry.extremes : List Entry :=
  [{ name := "n", type := .integer, value := .integer (-9223372036854775808)
     before := [' '], after := ['\t', ' '], enters := .integer _
     blank_before := List.all_eq_true.1 (by decide)
     blank_after := List.all_eq_true.1 (by decide) },
   { name := "c", type := .character, value := .character '\x00'
     before := [], after := [], enters := .character (by decide) (by decide)
     blank_before := List.all_eq_true.1 (by decide)
     blank_after := List.all_eq_true.1 (by decide) },
   { name := "b", type := .boolean, value := .boolean false
     before := [], after := ['\u3000'], enters := .boolean false
     blank_before := List.all_eq_true.1 (by decide)
     blank_after := List.all_eq_true.1 (by decide) },
   { name := "d", type := .character, value := .character '-'
     before := [' ', '\u00a0'], after := [], enters := .character (by decide) (by decide)
     blank_before := List.all_eq_true.1 (by decide)
     blank_after := List.all_eq_true.1 (by decide) }]

/-- A machine with variables for the entries, of which one is declared again inside. -/
def Machine.expecting : Machine :=
  { env := ⟨⟨[("n", ⟨.integer, .integer 0⟩), ("c", ⟨.character, .text "old"⟩)]⟩,
      [⟨[("d", ⟨.character, .null⟩), ("n", ⟨.decimal, .boolean true⟩),
        ("b", ⟨.boolean, .boolean true⟩)]⟩]⟩
    input := [" -9223372036854775808\t ,\x00,DILI\u3000, \u00a0-", "more"] }

/-- The entries are received from a line that is written out. -/
theorem Statement.exec_read_entries_extremes :
    Entry.extremes ≠ [] ∧ (Entry.extremes.map Entry.name).Nodup ∧
    Machine.expecting.env.Expects Entry.extremes ∧
    Machine.expecting.input = [Entry.line Entry.extremes, "more"] ∧
    ∃ m', (Statement.read ["n", "c", "b", "d"] ⟨1, 1⟩).exec 0 Machine.expecting = .ok () m' ∧
      m'.input = ["more"] ∧ m'.output = "" ∧
      ∀ e ∈ Entry.extremes, ∀ p, (Expr.var e.name p).eval m'.env = .ok e.value m'.env := by
  have hne : Entry.extremes ≠ [] := List.cons_ne_nil _ _
  have hn : (Entry.extremes.map Entry.name).Nodup := by decide
  have he : Machine.expecting.env.Expects Entry.extremes := by
    simp only [Environment.Expects, Entry.extremes, List.forall_mem_cons]
    exact ⟨⟨_, rfl, rfl⟩, ⟨_, rfl, rfl⟩, ⟨_, rfl, rfl⟩, ⟨_, rfl, rfl⟩, by simp⟩
  have hl : " -9223372036854775808\t ,\x00,DILI\u3000, \u00a0-" = Entry.line Entry.extremes := by
    decide +kernel
  have hi : Machine.expecting.input = [Entry.line Entry.extremes, "more"] :=
    congrArg (fun line => [line, "more"]) hl
  have hx := Statement.exec_read_entries 0 ⟨1, 1⟩ hne hn he hi
  exact ⟨hne, hn, he, hi, hx⟩

end Tudlo
