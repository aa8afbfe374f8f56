import Tudlo.Proofs.Token.Layout

/-!
# Where scanning stops

A source text that is refused is refused at the first place where it cannot go on.
What stands before that place is laid out as tokens and gaps, and what is there
begins neither with a token nor with a blank or a comment, or it is an integer that
is too large (`LexicalCause.Explains`, `scan_error`).
-/

namespace Tudlo

/-- Neither a word nor a blank begins the text. No comment does either, as a minus
    sign is a word. -/
def NothingStarts (text : List Char) : Prop :=
  (∀ c ∈ text.head?, Lexeme.isSpace c = false) ∧
    ∀ k word rest, Word k word → text ≠ word ++ rest

/-- The text begins with the digits, all of them and no fraction, and they are of
    no integer. -/
def BeginsTooLarge (digits text : List Char) : Prop :=
  ∃ rest, text = digits ++ rest ∧ IsDigits digits ∧ (∀ d ∈ rest.head?, d.isDigit = false) ∧
    (∀ d ds, rest = '.' :: d :: ds → d.isDigit = false) ∧
    ∀ n : Int64, Numeral.integer? digits ≠ some n.toInt

/-- The cause is what is wrong with the text at its start. -/
def LexicalCause.Explains (text : List Char) : LexicalCause → Prop
  | .unexpectedCharacter c => text.head? = some c ∧ NothingStarts text
  | .unterminatedCharacter => text.head? = some '\'' ∧ NothingStarts text
  | .unterminatedText => text.head? = some '"' ∧ NothingStarts text
  | .loneBang => text.head? = some '!' ∧ NothingStarts text
  | .literalTooLarge digits => BeginsTooLarge digits.toList text

namespace Lexeme

variable {c : Char} {cs w rest : List Char} {cause : LexicalCause}

/-! ### Nothing starts where no lexeme is found -/

/-- The characters that symbols begin with, other than the exclamation mark. -/
def symbolStarts : List Char :=
  ['=', '<', '>', '+', '-', '*', '/', '%', '&', '(', ')', '\x7b', '\x7d', ',', ':']

theorem start_of_spelling {s : Symbol} (h : String.ofList (c :: w) ∈ s.spellings) :
    c ∈ symbolStarts ∨ c = '!' ∧ w = ['='] := by
  have hs : ∀ s : Symbol, ∀ text ∈ s.spellings,
      (∀ d ∈ text.toList.head?, d ∈ symbolStarts) ∨ text = "!=" := by
    intro s
    cases s <;> simp [Symbol.spellings, symbolStarts]
  rcases hs s _ h with hm | he
  · exact .inl (hm c (by simp))
  · exact .inr (by simpa [← String.toList_inj] using he)

/-- With each of these characters a symbol begins, whatever comes after it. -/
theorem symbol?_ne_none_of_mem (h : c ∈ symbolStarts) : symbol? c cs ≠ none := by
  simp only [symbolStarts, List.mem_cons, List.not_mem_nil, or_false] at h
  rcases h with rfl | rfl | rfl | h
  -- Three of them begin two symbols or more, and the next character decides on which.
  iterate 3
    rcases cs with _ | ⟨d, ds⟩
    · exact Option.some_ne_none _
    · by_cases hd : d = '='
      · subst hd
        exact Option.some_ne_none _
      by_cases hd' : d = '>'
      · subst hd'
        exact Option.some_ne_none _
      simp [symbol?, hd, hd']
  rcases h with rfl | rfl | rfl | rfl | rfl | rfl | rfl | rfl | rfl | rfl | rfl | rfl <;>
    exact Option.some_ne_none _

theorem symbol?_ne_none_of_spelling {s : Symbol} (h : String.ofList (c :: w) ∈ s.spellings) :
    symbol? c (w ++ rest) ≠ none := by
  rcases start_of_spelling h with hm | ⟨rfl, rfl⟩
  · exact symbol?_ne_none_of_mem hm
  · exact Option.some_ne_none _

theorem measure_ne_error_of_symbol? {s : Symbol} {more : Nat} (h : symbol? c cs = some (s, more)) :
    measure c cs ≠ .error cause := by
  intro he
  by_cases hm : c = '-' ∧ cs.head? = some '-'
  · -- A minus sign before another one begins a comment.
    obtain ⟨rfl, hh⟩ := hm
    simp [measure, isSpace, hh] at he
  · rw [measure_of_symbol? h fun hc hh => hm ⟨hc, hh⟩] at he
    cases he

/-- Where a word starts there is a lexeme, but for digits that are too large. -/
theorem measure_ne_error_of_word {k : TokenKind} (h : Word k (c :: w)) (hc : c.isDigit = false) :
    measure c (w ++ rest) ≠ .error cause := by
  have hdigits : ∀ ds vs, IsDigits ds → c :: w ≠ ds ++ vs := by
    rintro ds vs hds he
    obtain ⟨d, ds, rfl⟩ := List.exists_cons_of_ne_nil hds.1
    obtain ⟨rfl, -⟩ := List.cons.inj he
    rw [hds.2 c List.mem_cons_self] at hc
    cases hc
  -- The indices of `Word` are texts like `'"' :: _`, so the text is kept apart from `c :: w`.
  generalize ht : c :: w = text at h
  cases h with
  | keyword hk =>
    have hl := (letters_of_spelling _ hk).1
    rw [← ht] at hl
    rw [measure_of_isWordStart (by simpa using hl)]
    simp
  | name hs =>
    obtain ⟨rfl, rfl⟩ := List.cons.inj ht
    rw [measure_of_isWordStart hs]
    simp
  | integer hd => exact absurd (by simpa using ht) (hdigits _ [] hd)
  | decimal hd => exact absurd ht (hdigits _ _ hd)
  | character hq hl =>
    obtain ⟨rfl, rfl⟩ := List.cons.inj ht
    rw [measure_of_character hq hl]
    simp
  | bracketed hl =>
    obtain ⟨rfl, rfl⟩ := List.cons.inj ht
    rw [measure_of_bracketed hl]
    simp
  | text hq =>
    obtain ⟨rfl, rfl⟩ := List.cons.inj ht
    rw [measure_of_quotes hq]
    simp
  | boolean b =>
    obtain ⟨rfl, rfl⟩ := List.cons.inj ht
    rw [measure_of_quotes (by cases b <;> decide)]
    simp
  | lineBreak =>
    obtain ⟨rfl, rfl⟩ := List.cons.inj ht
    exact fun he => by cases he
  | symbol hs =>
    subst ht
    obtain ⟨⟨s, more⟩, hsome⟩ := Option.ne_none_iff_exists'.1 (symbol?_ne_none_of_spelling hs)
    exact measure_ne_error_of_symbol? hsome

theorem nothingStarts_of_error (h : measure c cs = .error cause) (hc : c.isDigit = false) :
    NothingStarts (c :: cs) := by
  constructor
  · intro d hd
    obtain rfl := Option.some.inj hd
    by_contra hs
    rw [measure, if_pos (by simpa using hs)] at h
    cases h
  · rintro k word rest hw he
    obtain ⟨d, w, rfl⟩ := List.exists_cons_of_ne_nil hw.ne_nil
    obtain ⟨rfl, rfl⟩ := List.cons.inj he
    exact measure_ne_error_of_word hw hc h

/-! ### The causes -/

/-- The only numbers that are refused are integers that do not fit. -/
theorem number_eq_error (h : number c cs = .error cause) :
    EndsWhole cs ∧ Integer.narrow? (Numeral.natOf (c :: cs.takeWhile Char.isDigit)) = none ∧
      cause = .literalTooLarge (String.ofList (c :: cs.takeWhile Char.isDigit)) := by
  by_cases he : EndsWhole cs
  · rw [number_of_endsWhole he] at h
    rcases hn : Integer.narrow? (Numeral.natOf (c :: cs.takeWhile Char.isDigit)) with _ | n
    · rw [hn] at h
      exact ⟨he, rfl, (Except.error.inj h).symm⟩
    · rw [hn] at h
      cases h
  · simp only [EndsWhole, not_forall] at he
    obtain ⟨ds, hds, hf⟩ := he
    rw [number_of_point hds hf] at h
    cases h

/-- After the digits that a text begins with comes no digit. -/
theorem head?_dropWhile_isDigit (cs : List Char) :
    ∀ d ∈ (cs.dropWhile Char.isDigit).head?, d.isDigit = false := by
  intro d hd
  have := List.head?_dropWhile_not Char.isDigit cs
  rw [Option.mem_def.1 hd] at this
  simpa using this

/-- A whole number is not followed by a point and a digit. -/
theorem EndsWhole.not_isDigit (h : EndsWhole cs) :
    ∀ d ds, cs.dropWhile Char.isDigit = '.' :: d :: ds → d.isDigit = false := by
  intro d ds hds
  have := h (d :: ds) hds
  by_contra hdig
  rw [List.takeWhile_cons_of_pos (by simpa using hdig)] at this
  cases this

theorem explains_of_number (hc : c.isDigit = true) (h : number c cs = .error cause) :
    cause.Explains (c :: cs) := by
  obtain ⟨he, hn, rfl⟩ := number_eq_error h
  have hw : IsDigits (c :: cs.takeWhile Char.isDigit) := isDigits_cons_takeWhile hc
  rw [LexicalCause.Explains, String.toList_ofList]
  refine ⟨cs.dropWhile Char.isDigit, ?_, hw, head?_dropWhile_isDigit cs, he.not_isDigit, ?_⟩
  · rw [List.cons_append, List.takeWhile_append_dropWhile]
  · intro n hint
    rw [Numeral.integer?_of_isDigits hw, Option.some.injEq] at hint
    rw [hint, Integer.narrow?_toInt] at hn
    cases hn

theorem eq_of_character_error (h : character cs = .error cause) :
    cause = .unterminatedCharacter := by
  unfold character at h
  split at h
  · split at h
    · exact (Except.error.inj h).symm
    · cases h
  · exact (Except.error.inj h).symm

theorem eq_of_bracketed_error (h : bracketed cs = .error cause) :
    cause = .unexpectedCharacter '[' := by
  unfold bracketed at h
  split at h
  · split at h
    · exact (Except.error.inj h).symm
    · cases h
  · exact (Except.error.inj h).symm

theorem eq_of_quotation_error (h : quotation cs = .error cause) : cause = .unterminatedText := by
  unfold quotation at h
  dsimp only at h
  split at h
  · exact (Except.error.inj h).symm
  · cases h

/-- Where there is no lexeme, the cause says why. -/
theorem explains_of_measure (h : measure c cs = .error cause) : cause.Explains (c :: cs) := by
  by_cases hd : c.isDigit = true
  · rw [measure_of_isDigit hd] at h
    exact explains_of_number hd h
  · have hn := nothingStarts_of_error h (by simpa using hd)
    unfold measure at h
    split_ifs at h with _ _ _ hq hb ht _ hbang
    · obtain rfl := eq_of_character_error h
      exact ⟨by rw [hq]; rfl, hn⟩
    · obtain rfl := eq_of_bracketed_error h
      exact ⟨by rw [hb]; rfl, hn⟩
    · obtain rfl := eq_of_quotation_error h
      exact ⟨by rw [ht]; rfl, hn⟩
    all_goals split at h
    · cases h
    · obtain rfl := Except.error.inj h
      exact ⟨by rw [hbang]; rfl, hn⟩
    · cases h
    · obtain rfl := Except.error.inj h
      exact ⟨rfl, hn⟩

/-- The cut of a text stops where there is no lexeme. -/
theorem measure_of_cut {ls : List Lexeme} (h : cut cs = (ls, some (cause, rest))) :
    ∃ d ds, rest = d :: ds ∧ measure d ds = .error cause := by
  fun_induction cut cs generalizing ls with
  | case1 => cases h
  | case2 c cs cause' hm =>
    obtain ⟨-, rfl, rfl⟩ : [] = ls ∧ cause' = cause ∧ c :: cs = rest := by simpa using h
    exact ⟨c, cs, rfl, hm⟩
  | case3 c cs extent hm lexemes fault hc ih =>
    obtain ⟨rfl, rfl⟩ := Prod.mk.inj h
    exact ih hc

end Lexeme

/-- A source text is refused at the first place where it cannot go on. What is
    before that place is laid out as tokens, and the cause says what is wrong there. -/
theorem scan_error {source : String} {e : LexicalError} (h : scan source = .error e) :
    ∃ before after ts, source.toList = before ++ after ∧ Layout [] before ts ∧
      e.pos = .following before ∧ e.cause.Explains after := by
  obtain ⟨ls, after, hc, hp⟩ := cut_of_scan_error h
  obtain ⟨d, ds, rfl, hm⟩ := Lexeme.measure_of_cut hc
  have hl := (Lexeme.pieces_of_cut hc).fuse.layout []
  rw [Lexeme.text_fuse] at hl
  exact ⟨_, d :: ds, _, (Lexeme.text_of_cut_fault hc).symm, hl, hp, Lexeme.explains_of_measure hm⟩

end Tudlo
