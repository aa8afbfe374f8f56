import Tudlo.Proofs.Token.Longest

/-!
# Faults of a source text

What is not made of lexemes is refused, and for one reason only. The reasons are told
from the text at the place alone (`LexicalCause.Arises`): a mark that is not closed, an
exclamation mark on its own, digits that are too large, a character that no token begins
with. No two of them can be given for the same text, since each has first characters of
its own.

* `Lexeme.measure_eq_error_iff`: there is no lexeme exactly where a cause arises;
* `scan_eq_error_iff`: a source text is refused exactly when reading it from the left
  leads to such a place. It is refused there, and what stands before the place would not
  be refused on its own.
-/

namespace Tudlo

/-- The cause arises from the text, at its start. -/
inductive LexicalCause.Arises : LexicalCause → List Char → Prop
  | bang {cs : List Char} : cs.head? ≠ some '=' → Arises .loneBang ('!' :: cs)
  /-- The quote is not followed by a character, which is neither a quote nor the end of a
      line, and another quote. -/
  | quote {cs : List Char} :
      (∀ c ds, cs = c :: '\'' :: ds → c = '\'' ∨ Lexeme.isLineEnd c = true) →
      Arises .unterminatedCharacter ('\'' :: cs)
  | quotation {cs : List Char} : '"' ∉ cs → Arises .unterminatedText ('"' :: cs)
  /-- All digits belong to the number, which has no fraction. -/
  | digits {ds cs : List Char} : IsDigits ds → (∀ d ∈ cs.head?, d.isDigit = false) →
      (∀ d es, cs = '.' :: d :: es → d.isDigit = false) → Nat.pow 2 63 ≤ Numeral.natOf ds →
      Arises (.literalTooLarge (String.ofList ds)) (ds ++ cs)
  | bracket {cs : List Char} : (∀ c ds, cs = c :: ']' :: ds → Lexeme.isLineEnd c = true) →
      Arises (.unexpectedCharacter '[') ('[' :: cs)
  /-- No token begins with the character, whatever comes after it. -/
  | other {c : Char} {cs : List Char} : Lexeme.isSpace c = false → (∀ k w, ¬Word k (c :: w)) →
      Arises (.unexpectedCharacter c) (c :: cs)

theorem LexicalCause.Arises.ne_nil {cause : LexicalCause} {text : List Char}
    (h : cause.Arises text) : text ≠ [] := by
  rcases h with - | - | - | ⟨hd, -, -, -⟩ | - | -
  any_goals exact List.cons_ne_nil _ _
  exact List.append_ne_nil_of_left_ne_nil hd.1 _

theorem Integer.narrow?_eq_none_iff {n : Nat} :
    Integer.narrow? n = none ↔ Nat.pow 2 63 ≤ n := by
  have hp : Int.pow 2 63 = ((Nat.pow 2 63 : Nat) : Int) := by decide
  rw [Integer.narrow?, hp, ite_eq_right_iff]
  constructor
  · intro h
    by_contra hn
    exact absurd (h ⟨by omega, by omega⟩) (by simp)
  · rintro h ⟨-, hn⟩
    omega

namespace Lexeme

variable {c : Char} {cs : List Char} {cause : LexicalCause}

/-! ### Where there is no lexeme a cause arises -/

theorem arises_of_number (hc : c.isDigit = true) (h : number c cs = .error cause) :
    cause.Arises (c :: cs) := by
  obtain ⟨he, hn, rfl⟩ := number_eq_error h
  have hcs : c :: cs = (c :: cs.takeWhile Char.isDigit) ++ cs.dropWhile Char.isDigit := by
    rw [List.cons_append, List.takeWhile_append_dropWhile]
  rw [hcs]
  exact .digits (isDigits_cons_takeWhile hc) (head?_dropWhile_isDigit cs) he.not_isDigit
    (Integer.narrow?_eq_none_iff.1 hn)

theorem arises_of_character (h : character cs = .error cause) : cause.Arises ('\'' :: cs) := by
  obtain rfl := eq_of_character_error h
  refine .quote ?_
  rintro c ds rfl
  by_contra hc
  rw [not_or] at hc
  simp [character, hc.1, hc.2] at h

theorem arises_of_bracketed (h : bracketed cs = .error cause) : cause.Arises ('[' :: cs) := by
  obtain rfl := eq_of_bracketed_error h
  refine .bracket ?_
  rintro c ds rfl
  by_contra hc
  simp [bracketed, hc] at h

theorem arises_of_quotation (h : quotation cs = .error cause) : cause.Arises ('"' :: cs) := by
  obtain rfl := eq_of_quotation_error h
  refine .quotation fun hq => ?_
  have hl : (cs.takeWhile (· != '"')).length = cs.length := by
    by_contra hl
    rw [quotation, if_neg hl] at h
    cases h
  -- A text that is taken to its end has no quote in it.
  have he := (List.takeWhile_prefix (· != '"')).eq_of_length hl
  rw [← he] at hq
  simpa using List.mem_takeWhile_imp hq

/-- A character that nothing but a symbol can begin with is refused when it begins none. -/
theorem measure_of_no_symbol (hs : isSpace c = false) (hd : c.isDigit = false)
    (hw : isWordStart c = false) (hm : c ∉ ['\'', '[', '"', '$', '-'])
    (hsym : symbol? c cs = none) :
    measure c cs = .error (if c = '!' then .loneBang else .unexpectedCharacter c) := by
  simp only [List.mem_cons, List.not_mem_nil, or_false, not_or] at hm
  obtain ⟨hq, hb, ht, hl, hminus⟩ := hm
  rw [measure, if_neg (by simp [hs]), if_neg (by simp [hminus]), if_neg (by simp [hd]),
    if_neg (by simp [hw]), if_neg hq, if_neg hb, if_neg ht, if_neg hl, hsym]

/-- A character that only symbols can begin with, and that none begins with here, begins
    no word at all, unless it is an exclamation mark. -/
theorem not_word_of_no_symbol (hs : isSpace c = false) (hd : c.isDigit = false)
    (hw : isWordStart c = false) (hm : c ∉ ['\'', '[', '"', '$', '-'])
    (hsym : symbol? c cs = none) (hb : c ≠ '!') (k : TokenKind) (w : List Char) :
    ¬Word k (c :: w) := by
  intro h
  have hk := measure_of_word h (Apart.nil _)
  rw [List.append_nil] at hk
  rcases hsw : symbol? c w with _ | ⟨s, more⟩
  · rw [measure_of_no_symbol hs hd hw hm hsw] at hk
    cases hk
  · -- The word is a symbol, but then there would be one here, too.
    have hspell : String.ofList (c :: w.take more) ∈ s.spellings := by
      rcases word_of_symbol? hsw with - | - | - | - | - | - | - | - | - | h
      exact h
    rcases start_of_spelling hspell with hm | ⟨hc, -⟩
    · exact symbol?_ne_none_of_mem hm hsym
    · exact hb hc

/-- Where there is no lexeme, a cause for that arises. -/
theorem arises_of_measure (h : measure c cs = .error cause) : cause.Arises (c :: cs) := by
  by_cases hd : c.isDigit = true
  · rw [measure_of_isDigit hd] at h
    exact arises_of_number hd h
  by_cases hq : c = '\''
  · subst hq
    exact arises_of_character h
  by_cases hb : c = '['
  · subst hb
    exact arises_of_bracketed h
  by_cases ht : c = '"'
  · subst ht
    exact arises_of_quotation h
  -- Blanks, letters and the sign for a line break begin a lexeme in any case.
  have hs : isSpace c = false := by
    by_contra hs
    rw [measure_of_isSpace (by simpa using hs)] at h
    cases h
  have hw : isWordStart c = false := by
    by_contra hw
    rw [measure_of_isWordStart (by simpa using hw)] at h
    cases h
  have hl : c ≠ '$' := by
    rintro rfl
    cases h
  have hsym : symbol? c cs = none := by
    by_contra hn
    obtain ⟨⟨s, more⟩, hsome⟩ := Option.ne_none_iff_exists'.1 hn
    exact measure_ne_error_of_symbol? hsome h
  have hminus : c ≠ '-' := by
    rintro rfl
    cases hsym
  have hm : c ∉ ['\'', '[', '"', '$', '-'] := by simp [hq, hb, ht, hl, hminus]
  rw [measure_of_no_symbol hs (by simpa using hd) hw hm hsym] at h
  obtain rfl := Except.error.inj h
  by_cases hbang : c = '!'
  · subst hbang
    refine .bang fun hh => ?_
    obtain ⟨ds, rfl⟩ := List.head?_eq_some_iff.1 hh
    cases hsym
  · rw [if_neg hbang]
    exact .other hs (not_word_of_no_symbol hs (by simpa using hd) hw hm hsym hbang)

/-! ### Where a cause arises there is no lexeme -/

/-- A single digit is never too large. -/
theorem natOf_singleton_lt (h : c.isDigit = true) : Numeral.natOf [c] < Nat.pow 2 63 := by
  have h9 : c.toNat ≤ 57 := (of_decide_eq_true (Bool.and_eq_true_iff.1 h).2 : c.val ≤ '9'.val)
  calc Numeral.natOf [c] = c.toNat - 48 := by simp [Numeral.natOf, Nat.ofDigitChars]
    _ ≤ 9 := by omega
    _ < Nat.pow 2 63 := by decide

theorem exists_word_of_isDigit (h : c.isDigit = true) : ∃ k, Word k [c] := by
  have hr := isWordRest_of_isDigit h
  rcases hm : measure c [] with cause | ext
  · rw [measure_of_isDigit h] at hm
    obtain ⟨-, hn, -⟩ := number_eq_error hm
    exact absurd (Integer.narrow?_eq_none_iff.1 hn) (Nat.not_le.2 (natOf_singleton_lt h))
  · obtain ⟨k, -, hw⟩ := word_of_measure hm (isSpace_of_isWordRest hr)
      fun hc => absurd hc (ne_minus_of_isWordRest hr)
    exact ⟨k, by simpa using hw⟩

/-- Tokens begin with each of these characters. -/
theorem exists_word_of_mem (h : c ∈ ['!', '\'', '[', '"', '$', '-']) : ∃ k w, Word k (c :: w) := by
  simp only [List.mem_cons, List.not_mem_nil, or_false] at h
  rcases h with rfl | rfl | rfl | rfl | rfl | rfl
  · exact ⟨.symbol .notEqual, ['='], .symbol (by decide)⟩
  · exact ⟨.literal (.character 'a'), _, .character (by decide) (by decide)⟩
  · exact ⟨.literal (.bracketed 'a'), _, .bracketed (by decide)⟩
  · exact ⟨.literal (.boolean true), _, .boolean true⟩
  · exact ⟨.literal .lineBreak, [], .lineBreak⟩
  · exact ⟨.symbol .minus, [], .symbol (by decide)⟩

/-- A character that no token begins with is refused. -/
theorem measure_of_no_word (hs : isSpace c = false) (h : ∀ k w, ¬Word k (c :: w)) :
    measure c cs = .error (.unexpectedCharacter c) := by
  have hd : c.isDigit = false := by
    by_contra hd
    obtain ⟨k, hk⟩ := exists_word_of_isDigit (by simpa using hd)
    exact h k [] hk
  have hw : isWordStart c = false := by
    by_contra hw
    exact h _ [] (word_of_wordKind (by simpa using hw) (by simp))
  have hm : c ∉ ['!', '\'', '[', '"', '$', '-'] := by
    intro hm
    obtain ⟨k, w, hk⟩ := exists_word_of_mem hm
    exact h k w hk
  have hsym : symbol? c cs = none := by
    by_contra hn
    obtain ⟨⟨s, more⟩, hsome⟩ := Option.ne_none_iff_exists'.1 hn
    exact h _ _ (word_of_symbol? hsome)
  rw [List.mem_cons, not_or] at hm
  rw [measure_of_no_symbol hs hd hw hm.2 hsym, if_neg hm.1]

theorem symbol?_bang (h : cs.head? ≠ some '=') : symbol? '!' cs = none := by
  rcases cs with _ | ⟨d, ds⟩
  · rfl
  · have hd : d ≠ '=' := by simpa using h
    simp [symbol?, hd]

theorem measure_of_digits_arises {ds rest : List Char} (hd : IsDigits (c :: ds))
    (hstop : ∀ d ∈ rest.head?, d.isDigit = false)
    (hpoint : ∀ d es, rest = '.' :: d :: es → d.isDigit = false)
    (hn : Nat.pow 2 63 ≤ Numeral.natOf (c :: ds)) :
    measure c (ds ++ rest) = .error (.literalTooLarge (String.ofList (c :: ds))) := by
  have hw : ∀ d ∈ ds, d.isDigit = true := fun d h => hd.2 d (List.mem_cons_of_mem c h)
  have hends : EndsWhole (ds ++ rest) := by
    intro es h
    rw [dropWhile_append_of_head? hw hstop] at h
    refine takeWhile_eq_nil_of_head? fun d hm => ?_
    obtain ⟨es', rfl⟩ := List.head?_eq_some_iff.1 hm
    exact hpoint d es' h
  rw [measure_of_isDigit (hd.2 c List.mem_cons_self), number_of_endsWhole hends,
    takeWhile_append_of_head? hw hstop, Integer.narrow?_eq_none_iff.2 hn]
  rfl

theorem measure_of_arises (h : cause.Arises (c :: cs)) : measure c cs = .error cause := by
  generalize ht : c :: cs = text at h
  rcases h with hb | hq | hq | ⟨hd, hstop, hpoint, hn⟩ | hb | ⟨hs, hw⟩
  · obtain ⟨rfl, rfl⟩ := List.cons.inj ht
    exact measure_of_no_symbol rfl rfl rfl (by decide) (symbol?_bang hb)
  · obtain ⟨rfl, rfl⟩ := List.cons.inj ht
    show character cs = _
    unfold character
    split
    · rw [if_pos (by simpa using hq _ _ rfl)]
    · rfl
  · obtain ⟨rfl, rfl⟩ := List.cons.inj ht
    show quotation cs = _
    have hall : ∀ d ∈ cs, (d != '"') = true := fun d hd => by
      rw [bne_iff_ne]
      rintro rfl
      exact hq hd
    rw [quotation, List.takeWhile_eq_self_iff.2 hall, if_pos rfl]
  · obtain ⟨d, ds, rfl⟩ := List.exists_cons_of_ne_nil hd.1
    obtain ⟨rfl, rfl⟩ := List.cons.inj ht
    exact measure_of_digits_arises hd hstop hpoint hn
  · obtain ⟨rfl, rfl⟩ := List.cons.inj ht
    show bracketed cs = _
    unfold bracketed
    split
    · rw [if_pos (hb _ _ rfl)]
    · rfl
  · obtain ⟨rfl, rfl⟩ := List.cons.inj ht
    exact measure_of_no_word hs hw

/-- There is no lexeme exactly where a cause for that arises. -/
theorem measure_eq_error_iff : measure c cs = .error cause ↔ cause.Arises (c :: cs) :=
  ⟨arises_of_measure, measure_of_arises⟩

end Lexeme

/-- What was read of a source text is scanned, on its own, as the tokens that were
    read. -/
theorem scan_of_reading {source rest : List Char} {ls : List Lexeme}
    (h : Lexeme.Reading source ls rest) :
    scan (String.ofList (ls.flatMap Lexeme.text)) =
      .ok (Lexeme.tokens .start (Lexeme.fuse ls)) := by
  apply scan_of_cut
  rw [String.toList_ofList, h.alone.cut_eq, Lexeme.cut_nil, List.append_nil]

/-- Where a reading comes to a fault, the text is refused. -/
theorem scan_of_arises {source : String} {rest : List Char} {ls : List Lexeme}
    {cause : LexicalCause} (h : Lexeme.Reading source.toList ls rest) (ha : cause.Arises rest) :
    scan source = .error ⟨cause, .following (ls.flatMap Lexeme.text)⟩ := by
  obtain ⟨c, cs, rfl⟩ := List.exists_cons_of_ne_nil ha.ne_nil
  have hc : Lexeme.cut (c :: cs) = ([], some (cause, c :: cs)) := by
    rw [Lexeme.cut, Lexeme.measure_eq_error_iff.2 ha]
  have hcut := h.cut_eq
  rw [hc, List.append_nil] at hcut
  exact scan_of_cut_fault hcut

/-- A source text is refused exactly when it is read from the left, by longest match, up
    to a place where a cause for refusal arises, and it is refused at the position of that
    place and for that cause. What was read before is scanned, on its own, as the very
    tokens that were met, and the end after them. -/
theorem scan_eq_error_iff (source : String) (e : LexicalError) :
    (scan source = .error e ↔ ∃ ls rest, Lexeme.Reading source.toList ls rest ∧
      e.cause.Arises rest ∧ e.pos = .following (ls.flatMap Lexeme.text)) ∧
    ∀ ls rest, Lexeme.Reading source.toList ls rest →
      scan (String.ofList (ls.flatMap Lexeme.text)) =
        .ok (Lexeme.tokens .start (Lexeme.fuse ls)) := by
  refine ⟨⟨fun h => ?_, ?_⟩, fun ls rest h => scan_of_reading h⟩
  · obtain ⟨ls, rest, hc, hp⟩ := cut_of_scan_error h
    obtain ⟨d, ds, rfl, hm⟩ := Lexeme.measure_of_cut hc
    exact ⟨ls, d :: ds, Lexeme.reading_of_cut hc, Lexeme.measure_eq_error_iff.1 hm, hp⟩
  · rintro ⟨ls, rest, hr, ha, hp⟩
    obtain ⟨cause, pos⟩ := e
    obtain rfl : pos = _ := hp
    exact scan_of_arises hr ha

/-- A text with a token of two words and an integer, and then a point that belongs to no
    number. There are more faults after it. -/
def pointless : String :=
  "KUNG\tDILI 007.x 'ab' [ab] 99999999999999999999 \""

/-- This text is refused at its point. What is before the point is scanned as the two
    tokens that it is. -/
theorem scan_eq_error_iff_pointless :
    scan pointless = .error ⟨.unexpectedCharacter '.', ⟨1, 14⟩⟩ ∧
    ∃ ls rest, Lexeme.Reading pointless.toList ls rest ∧
      LexicalCause.Arises (.unexpectedCharacter '.') rest ∧
      ⟨1, 14⟩ = Position.following (ls.flatMap Lexeme.text) ∧
      scan (String.ofList (ls.flatMap Lexeme.text)) =
        .ok (Lexeme.tokens .start (Lexeme.fuse ls)) := by
  have h : scan pointless = .error ⟨.unexpectedCharacter '.', ⟨1, 14⟩⟩ := by decide +kernel
  obtain ⟨hiff, htokens⟩ := scan_eq_error_iff pointless ⟨.unexpectedCharacter '.', ⟨1, 14⟩⟩
  obtain ⟨ls, rest, hr, ha, hp⟩ := hiff.1 h
  exact ⟨h, ls, rest, hr, ha, hp, htokens ls rest hr⟩

end Tudlo
