import Tudlo.Proofs.Token.Spelling

/-!
# Words are recognised

A word at the front of a text is its first lexeme, as long as what follows does
not go on with the word (`Apart`, `Lexeme.measure_of_word`). All the words that
begin alike are told apart by this: digits and decimals, keywords and the names
that begin like them, and symbols that begin other symbols.
-/

namespace Tudlo

section TakeWhile

variable {α : Type} {p : α → Bool} {xs ys : List α}

theorem takeWhile_eq_nil_of_head? (h : ∀ y ∈ ys.head?, p y = false) : ys.takeWhile p = [] := by
  cases ys with
  | nil => rfl
  | cons y ys => exact List.takeWhile_cons_of_neg (by simp [h y rfl])

theorem dropWhile_eq_self_of_head? (h : ∀ y ∈ ys.head?, p y = false) : ys.dropWhile p = ys := by
  cases ys with
  | nil => rfl
  | cons y ys => exact List.dropWhile_cons_of_neg (by simp [h y rfl])

/-- A stretch is taken to its end when what follows stops it. -/
theorem takeWhile_append_of_head? (hx : ∀ x ∈ xs, p x = true) (hy : ∀ y ∈ ys.head?, p y = false) :
    (xs ++ ys).takeWhile p = xs := by
  rw [List.takeWhile_append_of_pos hx, takeWhile_eq_nil_of_head? hy, List.append_nil]

theorem dropWhile_append_of_head? (hx : ∀ x ∈ xs, p x = true) (hy : ∀ y ∈ ys.head?, p y = false) :
    (xs ++ ys).dropWhile p = ys := by
  rw [List.dropWhile_append_of_pos hx, dropWhile_eq_self_of_head? hy]

end TakeWhile

namespace Lexeme

variable {c : Char} {cs rest : List Char}

/-! ### The classes of characters -/

theorem isWordRest_of_isDigit (h : c.isDigit = true) : isWordRest c = true := by
  simp [isWordRest, Char.isAlphanum, h]

theorem isWordRest_of_isWordStart (h : isWordStart c = true) : isWordRest c = true := by
  simp only [isWordStart, Bool.or_eq_true] at h
  rcases h with h | h <;> simp [isWordRest, Char.isAlphanum, h]

/-- The codes of letters are larger than those of digits. -/
theorem le_val_of_isAlpha (h : c.isAlpha = true) : 65 ≤ c.val.toNat := by
  rcases Bool.or_eq_true_iff.1 (show (c.isUpper || c.isLower) = true from h) with h | h
  · exact (of_decide_eq_true h).1
  · have h : (decide (c.val ≥ 'a'.val) && decide (c.val ≤ 'z'.val)) = true := h
    have : 97 ≤ c.val.toNat := of_decide_eq_true (Bool.and_eq_true_iff.1 h).1
    omega

/-- A word does not start with a digit. -/
theorem isDigit_of_isWordStart (h : isWordStart c = true) : c.isDigit = false := by
  by_contra hd
  simp only [Char.isDigit, Bool.not_eq_false, Bool.and_eq_true, decide_eq_true_eq] at hd
  have h9 : c.val.toNat ≤ 57 := hd.2
  rcases Bool.or_eq_true_iff.1 h with h | h
  · have := le_val_of_isAlpha h
    omega
  · obtain rfl : c = '_' := by simpa using h
    exact absurd h9 (by decide)

theorem isSpace_of_isWordRest (h : isWordRest c = true) : isSpace c = false := by
  by_contra hs
  simp only [isSpace, Bool.not_eq_false, Bool.or_eq_true, beq_iff_eq] at hs
  rcases hs with (((rfl | rfl) | rfl) | rfl) | rfl <;> cases h

/-- What can be part of a word is not a minus sign. -/
theorem ne_minus_of_isWordRest (h : isWordRest c = true) : c ≠ '-' := by
  rintro rfl
  cases h

/-! ### The first lexeme, by its first character -/

theorem measure_of_isDigit (h : c.isDigit = true) : measure c cs = number c cs := by
  have hr := isWordRest_of_isDigit h
  simp [measure, isSpace_of_isWordRest hr, ne_minus_of_isWordRest hr, h]

theorem measure_of_isWordStart (h : isWordStart c = true) : measure c cs =
    .ok ⟨some (wordKind (String.ofList (c :: cs.takeWhile isWordRest))),
      (cs.takeWhile isWordRest).length⟩ := by
  have hr := isWordRest_of_isWordStart h
  simp [measure, isSpace_of_isWordRest hr, ne_minus_of_isWordRest hr, isDigit_of_isWordStart h, h]

/-- Nothing else starts with a character that a symbol starts with, but for
    comments. -/
theorem class_of_symbol? {r : Symbol × Nat} (h : symbol? c cs = some r) :
    isSpace c = false ∧ c.isDigit = false ∧ isWordStart c = false ∧
      c ∉ ['\'', '[', '"', '$'] := by
  unfold symbol? at h
  split at h
  all_goals first
    | decide
    | cases h

theorem measure_of_symbol? {s : Symbol} {more : Nat} (h : symbol? c cs = some (s, more))
    (hm : c = '-' → cs.head? ≠ some '-') : measure c cs = .ok ⟨some (.symbol s), more⟩ := by
  obtain ⟨hs, hd, hw, hq⟩ := class_of_symbol? h
  simp only [List.mem_cons, List.not_mem_nil, or_false, not_or] at hq
  have hm' : (decide (c = '-') && decide (cs.head? = some '-')) = false := by
    simpa using hm
  simp [measure, hs, hm', hd, hw, hq, h]

end Lexeme

/-- What follows the word does not go on with it, neither as a longer word nor as
    a comment. -/
structure Apart (word rest : List Char) : Prop where
  letter : ∀ d ∈ rest.head?, Lexeme.isWordRest d = false
  sign : ∀ d ∈ rest.head?, d ∉ ['.', '=', '>']
  comment : word = ['-'] → rest.head? ≠ some '-'

namespace Lexeme

variable {c : Char} {w rest : List Char}

/-! ### Keywords and names -/

theorem wordKind_of_spelling : ∀ k ∈ Keyword.singles, wordKind k.spelling = .keyword k := by
  decide

theorem wordKind_of_not_keyword {word : String} (h : ∀ k ∈ Keyword.singles, k.spelling ≠ word) :
    wordKind word = .name word := by
  have hn : Keyword.ofWord? word = none :=
    List.find?_eq_none.2 fun k hk => by simpa using h k hk
  rw [wordKind, hn]

/-- Keywords are made of letters. -/
theorem letters_of_spelling : ∀ k ∈ Keyword.singles,
    k.spelling.toList.head?.all isWordStart = true ∧
      k.spelling.toList.tail.all isWordRest = true := by
  decide

/-- The letters and digits of a word are all taken. -/
theorem measure_of_letters (hc : isWordStart c = true) (hw : ∀ d ∈ w, isWordRest d = true)
    (hr : Apart (c :: w) rest) :
    measure c (w ++ rest) = .ok ⟨some (wordKind (String.ofList (c :: w))), w.length⟩ := by
  rw [measure_of_isWordStart hc, takeWhile_append_of_head? hw hr.letter]

theorem measure_of_keyword {k : Keyword} (hk : k ∈ Keyword.singles)
    (h : k.spelling.toList = c :: w) (hr : Apart (c :: w) rest) :
    measure c (w ++ rest) = .ok ⟨some (.keyword k), w.length⟩ := by
  obtain ⟨hc, hw⟩ := letters_of_spelling k hk
  rw [h] at hc hw
  rw [measure_of_letters (by simpa using hc) (by simpa using hw) hr, ← h, String.ofList_toList,
    wordKind_of_spelling k hk]

/-! ### Numbers -/

/-- Digits stop where a word stops. -/
theorem Apart.not_isDigit (h : Apart w rest) : ∀ d ∈ rest.head?, d.isDigit = false := by
  intro d hd
  by_contra hdig
  have hl := h.letter d hd
  rw [isWordRest_of_isDigit (by simpa using hdig)] at hl
  cases hl

theorem measure_of_digits {n : Int64} (hd : IsDigits (c :: w))
    (hn : Numeral.integer? (c :: w) = some n.toInt) (hr : Apart (c :: w) rest) :
    measure c (w ++ rest) = .ok ⟨some (.literal (.integer n)), w.length⟩ := by
  have hstop := Apart.not_isDigit hr
  have hw : ∀ d ∈ w, d.isDigit = true := fun d h => hd.2 d (List.mem_cons_of_mem c h)
  have hends : EndsWhole (w ++ rest) := by
    intro ds h
    rw [dropWhile_append_of_head? hw hstop] at h
    exact absurd (hr.sign '.' (by simp [h])) (by simp)
  rw [Numeral.integer?_of_isDigits hd, Option.some.injEq] at hn
  rw [measure_of_isDigit (hd.2 c List.mem_cons_self), number_of_endsWhole hends,
    takeWhile_append_of_head? hw hstop, hn, Integer.narrow?_toInt]
  rfl

theorem measure_of_decimal {ds fs : List Char} {d : Binary64} (hd : IsDigits (c :: ds))
    (hf : IsDigits fs) (hn : Numeral.decimal? (c :: ds ++ '.' :: fs) = some d)
    (hr : Apart (c :: ds ++ '.' :: fs) rest) :
    measure c (ds ++ '.' :: fs ++ rest) =
      .ok ⟨some (.literal (.decimal d)), (ds ++ '.' :: fs).length⟩ := by
  have hw : ∀ d ∈ ds, d.isDigit = true := fun d h => hd.2 d (List.mem_cons_of_mem c h)
  have hp : ∀ d ∈ ('.' :: (fs ++ rest)).head?, d.isDigit = false := by simp
  have hfs : (fs ++ rest).takeWhile Char.isDigit = fs :=
    takeWhile_append_of_head? hf.2 (Apart.not_isDigit hr)
  rw [Numeral.decimal?_of_isDigits hd hf, Option.some.injEq] at hn
  rw [List.append_assoc, List.cons_append, measure_of_isDigit (hd.2 c List.mem_cons_self),
    number_of_point (dropWhile_append_of_head? hw hp) (by rw [hfs]; exact hf.1),
    takeWhile_append_of_head? hw hp, hfs, hn, List.length_append, List.length_cons,
    Nat.add_assoc, Nat.add_comm 1]

/-! ### Literals between marks, and symbols -/

theorem measure_of_character {d : Char} (hq : d ≠ '\'') (hl : isLineEnd d = false) :
    measure '\'' ([d, '\''] ++ rest) = .ok ⟨some (.literal (.character d)), 2⟩ := by
  show character ([d, '\''] ++ rest) = _
  simp [character, hq, hl]

theorem measure_of_bracketed {d : Char} (hl : isLineEnd d = false) :
    measure '[' ([d, ']'] ++ rest) = .ok ⟨some (.literal (.bracketed d)), 2⟩ := by
  show bracketed ([d, ']'] ++ rest) = _
  simp [bracketed, hl]

theorem measure_of_quotes (h : '"' ∉ w) :
    measure '"' (w ++ ['"'] ++ rest) =
      .ok ⟨some (.literal (quoted (String.ofList w))), (w ++ ['"']).length⟩ := by
  have hw : ∀ d ∈ w, (d != '"') = true := by
    intro d hd
    simp only [bne_iff_ne]
    rintro rfl
    exact h hd
  have ht : (w ++ ['"'] ++ rest).takeWhile (· != '"') = w := by
    rw [List.append_assoc]
    exact takeWhile_append_of_head? hw (by simp)
  show quotation (w ++ ['"'] ++ rest) = _
  rw [quotation, ht]
  simp

/-- The longest symbol is found. -/
theorem symbol?_of_spelling {s : Symbol} (h : String.ofList (c :: w) ∈ s.spellings)
    (hr : ∀ d ∈ rest.head?, d ∉ ['=', '>']) : symbol? c (w ++ rest) = some (s, w.length) := by
  -- Only symbols of one character can be gone on with, by the next character.
  have hd : ∀ d ds, rest = d :: ds → d ≠ '=' ∧ d ≠ '>' := by
    rintro d ds rfl
    simpa using hr d rfl
  cases s with
  | notEqual =>
    have h : c = '<' ∧ w = ['>'] ∨ c = '!' ∧ w = ['='] := by
      simpa [Symbol.spellings, ← String.toList_inj] using h
    rcases h with ⟨rfl, rfl⟩ | ⟨rfl, rfl⟩ <;> rfl
  | _ =>
    simp only [Symbol.spellings, List.mem_cons, List.not_mem_nil, or_false, ← String.toList_inj,
      String.toList_ofList] at h
    rcases rest with _ | ⟨d, ds⟩
    · simp_all [symbol?]
    · have := hd d ds rfl
      simp_all [symbol?]

theorem measure_of_symbol {s : Symbol} (h : String.ofList (c :: w) ∈ s.spellings)
    (hr : Apart (c :: w) rest) : measure c (w ++ rest) = .ok ⟨some (.symbol s), w.length⟩ := by
  have hs : symbol? c (w ++ rest) = some (s, w.length) :=
    symbol?_of_spelling h fun d hd hm => hr.sign d hd (List.mem_cons_of_mem _ hm)
  refine measure_of_symbol? hs ?_
  rintro rfl
  -- The minus sign begins no other symbol.
  have hw : w = [] := by
    have : some (Symbol.minus, 0) = some (s, w.length) := by rw [← hs]; simp [symbol?]
    simp only [Option.some.injEq, Prod.mk.injEq] at this
    exact List.eq_nil_of_length_eq_zero this.2.symm
  subst hw
  exact hr.comment rfl

/-- A word that is apart from what follows is the first lexeme. -/
theorem measure_of_word {k : TokenKind} (h : Word k (c :: w)) (hr : Apart (c :: w) rest) :
    measure c (w ++ rest) = .ok ⟨some k, w.length⟩ := by
  generalize ht : c :: w = text at h
  cases h with
  | keyword hk => exact measure_of_keyword hk ht.symm hr
  | name hc hw hn =>
    obtain ⟨rfl, rfl⟩ := List.cons.inj ht
    rw [measure_of_letters hc hw hr, wordKind_of_not_keyword]
    intro k hk he
    exact hn k hk (by rw [he, String.toList_ofList])
  | integer hd hn =>
    subst ht
    exact measure_of_digits hd hn hr
  | @decimal ds fs d hd hf hn =>
    obtain ⟨d, ds, rfl⟩ := List.exists_cons_of_ne_nil hd.1
    obtain ⟨rfl, rfl⟩ := List.cons.inj ht
    exact measure_of_decimal hd hf hn hr
  | character hq hl =>
    obtain ⟨rfl, rfl⟩ := List.cons.inj ht
    exact measure_of_character hq hl
  | bracketed hl =>
    obtain ⟨rfl, rfl⟩ := List.cons.inj ht
    exact measure_of_bracketed hl
  | text hq hb =>
    obtain ⟨rfl, rfl⟩ := List.cons.inj ht
    rw [measure_of_quotes hq, quoted, if_neg, if_neg]
    · exact fun h => hb false (by rw [← h, String.toList_ofList])
    · exact fun h => hb true (by rw [← h, String.toList_ofList])
  | boolean b =>
    obtain ⟨rfl, rfl⟩ := List.cons.inj ht
    rw [measure_of_quotes (by cases b <;> decide), String.ofList_toList]
    cases b <;> rfl
  | lineBreak =>
    obtain ⟨rfl, rfl⟩ := List.cons.inj ht
    rfl
  | symbol hs =>
    subst ht
    exact measure_of_symbol hs hr

end Lexeme

/-- A blank and the minus signs of a comment go on with no word, but for a minus
    sign. -/
theorem Apart.of_head {word rest : List Char}
    (h : ∀ d ∈ rest.head?, Lexeme.isSpace d = true ∨ d = '-' ∧ word ≠ ['-']) :
    Apart word rest where
  letter d hd := by
    rcases h d hd with hs | ⟨rfl, -⟩
    · by_contra hl
      rw [Lexeme.isSpace_of_isWordRest (by simpa using hl)] at hs
      cases hs
    · decide
  sign d hd hm := by
    have hn : ∀ d ∈ ['.', '=', '>'], Lexeme.isSpace d = false ∧ d ≠ '-' := by
      simp [Lexeme.isSpace]
    rcases h d hd with hs | ⟨rfl, -⟩
    · rw [(hn d hm).1] at hs
      cases hs
    · exact (hn _ hm).2 rfl
  comment hw hd := by
    rcases h '-' hd with hs | ⟨-, hne⟩
    · cases hs
    · exact hne hw

theorem Apart.nil (word : List Char) : Apart word [] :=
  .of_head (by simp)

/-- No word starts with a blank. -/
theorem Word.not_isSpace {k : TokenKind} {c : Char} {w : List Char} (h : Word k (c :: w)) :
    Lexeme.isSpace c = false := by
  by_contra hs
  have hm := Lexeme.measure_of_word h (Apart.nil _)
  rw [Lexeme.measure, if_pos (by simpa using hs)] at hm
  cases hm

end Tudlo
