import Mathlib.Data.List.TakeWhile
import Tudlo.Token.Lexeme

/-!
# How tokens are written

What the texts of the tokens are, said without a word about how they are found
in a source text.

* `Word`: the tokens that are one word, with the texts they can have. For a
  literal the text determines the value;
* `Spelling`: all tokens. There are three more, which are two words with spaces
  and tabs between them (`Keyword.halves`);
* `Gap`: what may stand between tokens: blanks, and comments that go on to the
  end of their line.

The first lexeme of a text is a piece of it that is spelled as it should be
(`Lexeme.piece_of_measure`).
-/

namespace Tudlo

/-! ### Words -/

/-- How a symbol is written. -/
def Symbol.spellings : Symbol → List String
  | .plus => ["+"]
  | .minus => ["-"]
  | .star => ["*"]
  | .slash => ["/"]
  | .percent => ["%"]
  | .ampersand => ["&"]
  | .assign => ["="]
  | .equal => ["=="]
  | .notEqual => ["<>", "!="]
  | .less => ["<"]
  | .lessEqual => ["<="]
  | .greater => [">"]
  | .greaterEqual => [">="]
  | .openParen => ["("]
  | .closeParen => [")"]
  | .openBrace => ["\x7b"]
  | .closeBrace => ["\x7d"]
  | .comma => [","]
  | .colon => [":"]

/-- One digit or more, and nothing else. -/
def IsDigits (ds : List Char) : Prop :=
  ds ≠ [] ∧ ∀ d ∈ ds, d.isDigit = true

/-- The token is written as the text, which is one word. -/
inductive Word : TokenKind → List Char → Prop
  | keyword {k : Keyword} : k ∈ Keyword.singles → Word (.keyword k) k.spelling.toList
  /-- A name is not a keyword. -/
  | name {c : Char} {cs : List Char} : Lexeme.isWordStart c = true →
      (∀ d ∈ cs, Lexeme.isWordRest d = true) →
      (∀ k ∈ Keyword.singles, k.spelling.toList ≠ c :: cs) →
      Word (.name (String.ofList (c :: cs))) (c :: cs)
  | integer {ds : List Char} {n : Int64} : IsDigits ds → Numeral.integer? ds = some n.toInt →
      Word (.literal (.integer n)) ds
  | decimal {ds fs : List Char} {d : Binary64} : IsDigits ds → IsDigits fs →
      Numeral.decimal? (ds ++ '.' :: fs) = some d → Word (.literal (.decimal d)) (ds ++ '.' :: fs)
  | character {c : Char} : c ≠ '\'' → Lexeme.isLineEnd c = false →
      Word (.literal (.character c)) ['\'', c, '\'']
  | bracketed {c : Char} : Lexeme.isLineEnd c = false →
      Word (.literal (.bracketed c)) ['[', c, ']']
  | text {cs : List Char} : '"' ∉ cs → (∀ b, cs ≠ (Value.truthWord b).toList) →
      Word (.literal (.text (String.ofList cs))) ('"' :: (cs ++ ['"']))
  | boolean (b : Bool) :
      Word (.literal (.boolean b)) ('"' :: ((Value.truthWord b).toList ++ ['"']))
  | lineBreak : Word (.literal .lineBreak) ['$']
  | symbol {s : Symbol} {text : List Char} : String.ofList text ∈ s.spellings →
      Word (.symbol s) text

/-- The two words of a keyword that is two words. -/
def Keyword.halves : Keyword → Option (String × String)
  | .kungDili => some ("KUNG", "DILI")
  | .kungWala => some ("KUNG", "WALA")
  | .alangSa => some ("ALANG", "SA")
  | _ => none

/-- The token is written as the text. -/
inductive Spelling : TokenKind → List Char → Prop
  | word {k : TokenKind} {text : List Char} : Word k text → Spelling k text
  | pair {k : Keyword} {first second : String} {gap : List Char} :
      k.halves = some (first, second) → gap ≠ [] → (∀ c ∈ gap, Lexeme.isInline c = true) →
      Spelling (.keyword k) (first.toList ++ gap ++ second.toList)

theorem Symbol.empty_notMem_spellings (s : Symbol) : "" ∉ s.spellings := by
  cases s <;> decide

theorem Keyword.spelling_ne_nil : ∀ k ∈ Keyword.singles, k.spelling.toList ≠ [] := by
  decide

/-- No word is empty. -/
theorem Word.ne_nil {k : TokenKind} {text : List Char} (h : Word k text) : text ≠ [] := by
  cases h with
  | keyword hk => exact Keyword.spelling_ne_nil _ hk
  | integer hd => exact hd.1
  | symbol ht =>
    rintro rfl
    exact Symbol.empty_notMem_spellings _ ht
  | _ => simp

/-- No token is empty. -/
theorem Spelling.ne_nil {k : TokenKind} {text : List Char} (h : Spelling k text) : text ≠ [] := by
  cases h with
  | word hw => exact hw.ne_nil
  | pair _ hg _ => simp [hg]

/-! ### Digits -/

/-- A digit has no other case. -/
theorem toLower_of_isDigit {c : Char} (h : c.isDigit = true) : c.toLower = c := by
  simp only [Char.isDigit, Bool.and_eq_true, decide_eq_true_eq] at h
  refine dif_neg ?_
  rintro ⟨hA, _⟩
  have : ('A' : Char).val ≤ ('9' : Char).val := Nat.le_trans hA h.2
  exact absurd this (by decide)

namespace Numeral

theorem splitSign_of_isDigit {c : Char} {cs : List Char} (h : c.isDigit = true) :
    splitSign (c :: cs) = (false, c :: cs) := by
  have hm : c ≠ '-' := by rintro rfl; cases h
  have hp : c ≠ '+' := by rintro rfl; cases h
  simp [splitSign, hm, hp]

/-- Digits write the natural number that they are. -/
theorem integer?_of_isDigits {ds : List Char} (h : IsDigits ds) :
    integer? ds = some (natOf ds : Int) := by
  obtain ⟨d, ds, rfl⟩ := List.exists_cons_of_ne_nil h.1
  have ha : (d :: ds).all Char.isDigit = true := List.all_eq_true.2 h.2
  simp [integer?, splitSign_of_isDigit (h.2 d List.mem_cons_self), natural?, ha, Binary64.signed]

/-- Digits, a point and more digits write a numeral without an exponent. -/
theorem unsigned?_of_isDigits (negative : Bool) {ds fs : List Char} (hd : IsDigits ds)
    (hf : IsDigits fs) :
    unsigned? negative (ds ++ '.' :: fs) = some (ofDigits negative ds fs 0) := by
  have hp : Char.isDigit '.' = false := rfl
  have hw : (ds ++ '.' :: fs).takeWhile Char.isDigit = ds := by
    rw [List.takeWhile_append_of_pos hd.2, List.takeWhile_cons_of_neg (by simp [hp]),
      List.append_nil]
  have hr : (ds ++ '.' :: fs).dropWhile Char.isDigit = '.' :: fs := by
    rw [List.dropWhile_append_of_pos hd.2, List.dropWhile_cons_of_neg (by simp [hp])]
  have hfw : fs.takeWhile Char.isDigit = fs := List.takeWhile_eq_self_iff.2 hf.2
  have hfr : fs.dropWhile Char.isDigit = [] := List.dropWhile_eq_nil_iff.2 hf.2
  simp [unsigned?, hw, hr, hfw, hfr, hd.1, exponent?]

/-- The numeral is read with the sign in front of it. -/
theorem decimal?_signText (negative : Bool) {ds fs : List Char} (hd : IsDigits ds)
    (hf : IsDigits fs) :
    decimal? ((Binary64.signText negative).toList ++ (ds ++ '.' :: fs)) =
      some (ofDigits negative ds fs 0).toBinary64 := by
  have hu := unsigned?_of_isDigits negative hd hf
  obtain ⟨d, ds, rfl⟩ := List.exists_cons_of_ne_nil hd.1
  have hd0 : d.isDigit = true := hd.2 d List.mem_cons_self
  -- A digit is the first letter of none of the words for numbers.
  have hi : d ≠ 'i' := by rintro rfl; cases hd0
  have hn : d ≠ 'n' := by rintro rfl; cases hd0
  have hs : splitSign ((Binary64.signText negative).toList ++ (d :: ds ++ '.' :: fs)) =
      (negative, d :: ds ++ '.' :: fs) := by
    cases negative with
    | false => exact splitSign_of_isDigit hd0
    | true => rfl
  rw [decimal?, hs]
  rw [List.cons_append] at hu ⊢
  simp [hu, toLower_of_isDigit hd0, String.ext_iff, hi, hn]

/-- Digits, a point and more digits write a number without an exponent. -/
theorem decimal?_of_isDigits {ds fs : List Char} (hd : IsDigits ds) (hf : IsDigits fs) :
    decimal? (ds ++ '.' :: fs) = some (ofDigits false ds fs 0).toBinary64 :=
  decimal?_signText false hd hf

end Numeral

/-! ### Between tokens -/

/-- The text may stand between tokens, before `rest`: it is made of blanks and of
    comments, and every comment goes on to the end of its line. -/
inductive Gap (rest : List Char) : List Char → Prop
  | nil : Gap rest []
  | space {c : Char} {gap : List Char} : Lexeme.isSpace c = true → Gap rest gap →
      Gap rest (c :: gap)
  | comment {text gap : List Char} : '\n' ∉ text → (∀ c ∈ (gap ++ rest).head?, c = '\n') →
      Gap rest gap → Gap rest ('-' :: '-' :: (text ++ gap))

/-- The text of a lexeme, before `rest`: a token as it is spelled, or blanks, or a
    comment. -/
inductive Lexeme.Piece (rest : List Char) : Option TokenKind → List Char → Prop
  | token {k : TokenKind} {text : List Char} : Spelling k text → Piece rest (some k) text
  | blanks {text : List Char} : text ≠ [] → (∀ c ∈ text, isSpace c = true) → Piece rest none text
  | comment {text : List Char} : '\n' ∉ text → (∀ c ∈ rest.head?, c = '\n') →
      Piece rest none ('-' :: '-' :: text)

/-! ### What the first lexeme is -/

section TakeWhile

variable {α : Type} (p : α → Bool) (l : List α)

theorem take_length_takeWhile : l.take (l.takeWhile p).length = l.takeWhile p :=
  (List.prefix_iff_eq_take.1 (List.takeWhile_prefix p)).symm

theorem drop_length_takeWhile : l.drop (l.takeWhile p).length = l.dropWhile p := by
  have h := List.take_append_drop (l.takeWhile p).length l
  rw [take_length_takeWhile] at h
  exact List.append_cancel_left (h.trans List.takeWhile_append_dropWhile.symm)

end TakeWhile

namespace Lexeme

variable {c : Char} {cs : List Char} {ext : Extent}

theorem word_of_wordKind (h : isWordStart c = true) (hs : ∀ d ∈ cs, isWordRest d = true) :
    Word (wordKind (String.ofList (c :: cs))) (c :: cs) := by
  unfold wordKind
  split
  · rename_i k hk
    have he : k.spelling = String.ofList (c :: cs) := by simpa using List.find?_some hk
    have hw := Word.keyword (List.mem_of_find?_eq_some hk)
    rwa [he, String.toList_ofList] at hw
  · rename_i hn
    refine .name h hs fun k hk he => ?_
    have := List.find?_eq_none.1 hn k hk
    simp [← String.toList_inj, he] at this

/-- The digits that `cs` begins with are not followed by a point and a digit. -/
def EndsWhole (cs : List Char) : Prop :=
  ∀ ds, cs.dropWhile Char.isDigit = '.' :: ds → ds.takeWhile Char.isDigit = []

/-- Digits, a point and a digit are a decimal. -/
theorem number_of_point {ds : List Char} (h : cs.dropWhile Char.isDigit = '.' :: ds)
    (hf : ds.takeWhile Char.isDigit ≠ []) :
    number c cs = .ok ⟨some (.literal (.decimal (Numeral.ofDigits false
      (c :: cs.takeWhile Char.isDigit) (ds.takeWhile Char.isDigit) 0).toBinary64)),
      (cs.takeWhile Char.isDigit).length + 1 + (ds.takeWhile Char.isDigit).length⟩ := by
  simp [number, h, hf]

/-- Digits alone are an integer, or else they are too large for one. -/
theorem number_of_endsWhole (h : EndsWhole cs) : number c cs =
    ((Integer.narrow? (Numeral.natOf (c :: cs.takeWhile Char.isDigit))).elim
      (.error (.literalTooLarge (String.ofList (c :: cs.takeWhile Char.isDigit))))
      fun n => .ok ⟨some (.literal (.integer n)), (cs.takeWhile Char.isDigit).length⟩) := by
  rw [number]
  dsimp only
  split
  · rename_i ds hds
    rw [h ds hds]
    cases Integer.narrow? (Numeral.natOf (c :: cs.takeWhile Char.isDigit)) <;> rfl
  · cases Integer.narrow? (Numeral.natOf (c :: cs.takeWhile Char.isDigit)) <;> rfl

theorem isDigits_cons_takeWhile (hc : c.isDigit = true) :
    IsDigits (c :: cs.takeWhile Char.isDigit) :=
  ⟨List.cons_ne_nil _ _, List.forall_mem_cons.2 ⟨hc, fun _ hd => List.mem_takeWhile_imp hd⟩⟩

theorem word_of_number (hc : c.isDigit = true) (h : number c cs = .ok ext) :
    ∃ k, ext.kind = some k ∧ Word k (c :: cs.take ext.more) := by
  have hw : IsDigits (c :: cs.takeWhile Char.isDigit) := isDigits_cons_takeWhile hc
  by_cases he : EndsWhole cs
  · rw [number_of_endsWhole he] at h
    cases hn : Integer.narrow? (Numeral.natOf (c :: cs.takeWhile Char.isDigit)) with
    | none =>
      rw [hn] at h
      cases h
    | some n =>
      rw [hn] at h
      obtain rfl := Except.ok.inj h
      refine ⟨_, rfl, ?_⟩
      rw [take_length_takeWhile]
      refine .integer hw ?_
      rw [Numeral.integer?_of_isDigits hw, Integer.toInt_of_narrow? hn]
  · simp only [EndsWhole, not_forall] at he
    obtain ⟨ds, hds, hf⟩ := he
    rw [number_of_point hds hf] at h
    obtain rfl := Except.ok.inj h
    have hfs : IsDigits (ds.takeWhile Char.isDigit) :=
      ⟨hf, fun _ hd => List.mem_takeWhile_imp hd⟩
    have ht : cs.take ((cs.takeWhile Char.isDigit).length + 1 + (ds.takeWhile Char.isDigit).length)
        = cs.takeWhile Char.isDigit ++ '.' :: ds.takeWhile Char.isDigit := by
      rw [Nat.add_assoc, List.take_add, take_length_takeWhile, drop_length_takeWhile, hds,
        Nat.add_comm, List.take_succ_cons, take_length_takeWhile]
    refine ⟨_, rfl, ?_⟩
    rw [ht]
    exact .decimal hw hfs (Numeral.decimal?_of_isDigits hw hfs)

theorem word_of_character (h : character cs = .ok ext) :
    ∃ k, ext.kind = some k ∧ Word k ('\'' :: cs.take ext.more) := by
  unfold character at h
  split at h
  · split at h
    · cases h
    · rename_i hc
      obtain rfl := Except.ok.inj h
      rw [Bool.or_eq_true, not_or, decide_eq_true_eq] at hc
      exact ⟨_, rfl, .character hc.1 (by simpa using hc.2)⟩
  · cases h

theorem word_of_bracketed (h : bracketed cs = .ok ext) :
    ∃ k, ext.kind = some k ∧ Word k ('[' :: cs.take ext.more) := by
  unfold bracketed at h
  split at h
  · split at h
    · cases h
    · rename_i hc
      obtain rfl := Except.ok.inj h
      exact ⟨_, rfl, .bracketed (by simpa using hc)⟩
  · cases h

/-- The text between double quotes is a truth value when it is the word for
    one. -/
theorem word_of_quoted {text : List Char} (h : '"' ∉ text) :
    Word (.literal (quoted (String.ofList text))) ('"' :: (text ++ ['"'])) := by
  unfold quoted
  split
  · rename_i ht
    simpa [← ht] using Word.boolean true
  · split
    · rename_i hf
      simpa [← hf] using Word.boolean false
    · rename_i ht hf
      refine .text h fun b hb => ?_
      cases b <;> simp_all

theorem word_of_quotation (h : quotation cs = .ok ext) :
    ∃ k, ext.kind = some k ∧ Word k ('"' :: cs.take ext.more) := by
  rw [quotation] at h
  split_ifs at h with hl
  obtain rfl := Except.ok.inj h
  have hn : '"' ∉ cs.takeWhile (· != '"') := fun hq => by simpa using List.mem_takeWhile_imp hq
  -- The quote that closes the text is the first thing that is not inside.
  obtain ⟨d, ds, hds⟩ : ∃ d ds, cs.dropWhile (· != '"') = d :: ds := by
    refine List.exists_cons_of_ne_nil fun he => hl ?_
    rw [List.takeWhile_eq_self_iff.2 (List.dropWhile_eq_nil_iff.1 he)]
  have hd : d = '"' := by
    have := List.head?_dropWhile_not (· != '"') cs
    simpa [hds] using this
  have ht : cs.take ((cs.takeWhile (· != '"')).length + 1) = cs.takeWhile (· != '"') ++ ['"'] := by
    rw [List.take_add, take_length_takeWhile, drop_length_takeWhile, hds, hd]
    rfl
  refine ⟨_, rfl, ?_⟩
  rw [ht]
  exact word_of_quoted hn

theorem word_of_symbol? {s : Symbol} {more : Nat} (h : symbol? c cs = some (s, more)) :
    Word (.symbol s) (c :: cs.take more) := by
  unfold symbol? at h
  split at h <;> simp only [Option.some.injEq, Prod.mk.injEq, reduceCtorEq] at h <;>
    obtain ⟨rfl, rfl⟩ := h <;> exact .symbol (by simp [Symbol.spellings])

/-- The first lexeme of a text is a word, unless the text begins with a blank or a
    comment. -/
theorem word_of_measure (h : measure c cs = .ok ext) (hs : isSpace c = false)
    (hm : c = '-' → cs.head? ≠ some '-') :
    ∃ k, ext.kind = some k ∧ Word k (c :: cs.take ext.more) := by
  unfold measure at h
  split_ifs at h with hs' hm' hd hw hq hb ht hl
  · rw [hs] at hs'
    cases hs'
  · rw [Bool.and_eq_true, decide_eq_true_eq, decide_eq_true_eq] at hm'
    exact absurd hm'.2 (hm hm'.1)
  · exact word_of_number hd h
  · obtain rfl := Except.ok.inj h
    refine ⟨_, rfl, ?_⟩
    rw [take_length_takeWhile]
    exact word_of_wordKind hw fun _ hd => List.mem_takeWhile_imp hd
  · subst hq
    exact word_of_character h
  · subst hb
    exact word_of_bracketed h
  · subst ht
    exact word_of_quotation h
  · subst hl
    obtain rfl := Except.ok.inj h
    exact ⟨_, rfl, .lineBreak⟩
  -- What is left are symbols, and whether the character is `!` does not matter to them.
  all_goals
    split at h
    · rename_i s more hs
      obtain rfl := Except.ok.inj h
      exact ⟨_, rfl, word_of_symbol? hs⟩
    · cases h

theorem measure_of_isSpace (hs : isSpace c = true) :
    measure c cs = .ok ⟨none, (cs.takeWhile isSpace).length⟩ := by
  rw [measure, if_pos hs]

/-- Two minus signs begin a comment. -/
theorem measure_minus_minus :
    measure '-' ('-' :: cs) = .ok ⟨none, (cs.takeWhile (· != '\n')).length + 1⟩ := by
  show Except.ok (Extent.mk none (('-' :: cs).takeWhile (· != '\n')).length) = _
  rw [List.takeWhile_cons_of_pos (by decide), List.length_cons]

/-- The first lexeme of a text is a piece of it. -/
theorem piece_of_measure (h : measure c cs = .ok ext) :
    Piece (cs.drop ext.more) ext.kind (c :: cs.take ext.more) := by
  by_cases hs : isSpace c = true
  · rw [measure_of_isSpace hs] at h
    obtain rfl := Except.ok.inj h
    refine .blanks (List.cons_ne_nil _ _) (List.forall_mem_cons.2 ⟨hs, ?_⟩)
    rw [take_length_takeWhile]
    exact fun _ hc => List.mem_takeWhile_imp hc
  by_cases hm : c = '-' ∧ cs.head? = some '-'
  · obtain ⟨rfl, hm⟩ := hm
    obtain ⟨ds, rfl⟩ := List.head?_eq_some_iff.1 hm
    rw [measure_minus_minus] at h
    obtain rfl := Except.ok.inj h
    rw [List.take_succ_cons, List.drop_succ_cons, take_length_takeWhile, drop_length_takeWhile]
    refine .comment (fun hn => by simpa using List.mem_takeWhile_imp hn) fun d hd => ?_
    have := List.head?_dropWhile_not (· != '\n') ds
    rw [Option.mem_def.1 hd] at this
    simpa using this
  · obtain ⟨k, hk, hw⟩ := word_of_measure h (by simpa using hs) fun hc hh => hm ⟨hc, hh⟩
    rw [hk]
    exact .token (.word hw)

end Lexeme

end Tudlo
