import Tudlo.Proofs.Token.Refusal
import Tudlo.Proofs.Token.Separation

/-!
# Reading by longest match

At every place of a source text the longest lexeme is taken. Here this is said of
the texts alone: a text *has the form* of a lexeme when it is a word, blanks or a
comment, or when it is made of digits (`Lexeme.HasForm`), and the lexeme that is
read is the longest beginning of what is left that has such a form
(`Lexeme.Longest`). Digits have the form of an integer even when the integer does not
fit, so that no shorter run of digits is read in place of one that is too large.

* `Lexeme.Candidate`: the texts that can be read as lexemes of a given kind;
* `Lexeme.Reading`: lexemes read from the left, one after the other, and the text
  that is left;
* `Lexeme.longest_of_measure`, `Lexeme.cut_of_longest`: the cut of a text takes the
  longest lexeme, and takes it whenever there is one;
* `Lexeme.Reading.alone`: what was read is read in the same way when nothing follows.
-/

namespace Tudlo

namespace Lexeme

/-- The text can be read as a lexeme of the kind, which is none for blanks and
    comments. -/
inductive Candidate : Option TokenKind → List Char → Prop
  | word {k : TokenKind} {text : List Char} : Word k text → Candidate (some k) text
  | blanks {text : List Char} : text ≠ [] → (∀ c ∈ text, isSpace c = true) → Candidate none text
  | comment {text : List Char} : '\n' ∉ text → Candidate none ('-' :: '-' :: text)

/-- The text has the form of a lexeme, which for digits does not depend on the
    number that they write. -/
def HasForm (text : List Char) : Prop :=
  (∃ kind, Candidate kind text) ∨ IsDigits text

/-- The text begins with the lexeme, and nothing longer that it begins with has the
    form of a lexeme. -/
structure Longest (text lexeme : List Char) : Prop where
  begins : lexeme <+: text
  form : HasForm lexeme
  longest : ∀ other, other <+: text → HasForm other → other.length ≤ lexeme.length

/-- The lexemes are read from the text, from the left and each one as long as it can
    be, and then `rest` is left. -/
inductive Reading : (source : List Char) → List Lexeme → (rest : List Char) → Prop
  | stop (source : List Char) : Reading source [] source
  | step {kind : Option TokenKind} {text after rest : List Char} {ls : List Lexeme} :
      Candidate kind text → Longest (text ++ after) text → Reading after ls rest →
      Reading (text ++ after) (⟨kind, text⟩ :: ls) rest

variable {c : Char} {cs w rest text : List Char} {kind : Option TokenKind} {ext : Extent}

/-! ### Nothing longer than the first lexeme -/

theorem length_le_length_takeWhile {α : Type} {p : α → Bool} {xs ys : List α}
    (h : ∀ x ∈ xs, p x = true) : xs.length ≤ ((xs ++ ys).takeWhile p).length := by
  rw [List.takeWhile_append_of_pos h, List.length_append]
  exact Nat.le_add_right _ _

/-- A number takes all the digits it begins with. -/
theorem length_le_of_number (h : number c cs = .ok ext) :
    (cs.takeWhile Char.isDigit).length ≤ ext.more := by
  by_cases he : EndsWhole cs
  · rw [number_of_endsWhole he] at h
    rcases hn : Integer.narrow? (Numeral.natOf (c :: cs.takeWhile Char.isDigit)) with _ | n
    · rw [hn] at h
      cases h
    · rw [hn] at h
      obtain rfl := Except.ok.inj h
      exact le_rfl
  · simp only [EndsWhole, not_forall] at he
    obtain ⟨ds, hds, hf⟩ := he
    rw [number_of_point hds hf] at h
    obtain rfl := Except.ok.inj h
    rw [Nat.add_assoc]
    exact Nat.le_add_right _ _

theorem length_le_of_digits (hd : IsDigits (c :: w)) (h : measure c (w ++ rest) = .ok ext) :
    w.length ≤ ext.more := by
  rw [measure_of_isDigit (hd.2 c List.mem_cons_self)] at h
  have hw : ∀ d ∈ w, d.isDigit = true := fun d hm => hd.2 d (List.mem_cons_of_mem c hm)
  exact (length_le_length_takeWhile hw).trans (length_le_of_number h)

/-- A number with a point takes all the digits after the point, too. -/
theorem length_le_of_decimal {ds fs : List Char} (hd : IsDigits (c :: ds)) (hf : IsDigits fs)
    (h : measure c (ds ++ '.' :: fs ++ rest) = .ok ext) : (ds ++ '.' :: fs).length ≤ ext.more := by
  have hw : ∀ d ∈ ds, d.isDigit = true := fun d hm => hd.2 d (List.mem_cons_of_mem c hm)
  have hp : ∀ d ∈ ('.' :: (fs ++ rest)).head?, d.isDigit = false := by simp
  have hne : (fs ++ rest).takeWhile Char.isDigit ≠ [] := by
    rw [List.takeWhile_append_of_pos hf.2]
    exact List.append_ne_nil_of_left_ne_nil hf.1 _
  rw [List.append_assoc, List.cons_append, measure_of_isDigit (hd.2 c List.mem_cons_self),
    number_of_point (dropWhile_append_of_head? hw hp) hne, takeWhile_append_of_head? hw hp] at h
  obtain rfl := Except.ok.inj h
  have : fs.length ≤ ((fs ++ rest).takeWhile Char.isDigit).length :=
    length_le_length_takeWhile hf.2
  simp only [List.length_append, List.length_cons]
  omega

/-- A symbol of two characters is found, whatever follows it. -/
theorem symbol?_of_two {s : Symbol} {d : Char} (h : String.ofList [c, d] ∈ s.spellings) :
    symbol? c (d :: rest) = some (s, 1) := by
  cases s with
  | notEqual =>
    have h : c = '<' ∧ d = '>' ∨ c = '!' ∧ d = '=' := by
      simpa [Symbol.spellings, ← String.toList_inj] using h
    rcases h with ⟨rfl, rfl⟩ | ⟨rfl, rfl⟩ <;> rfl
  | _ =>
    simp only [Symbol.spellings, List.mem_cons, List.not_mem_nil, or_false, ← String.toList_inj,
      String.toList_ofList] at h
    simp_all [symbol?]

theorem length_spelling {s : Symbol} (h : String.ofList (c :: w) ∈ s.spellings) :
    w = [] ∨ ∃ d, w = [d] := by
  have hl : ∀ s : Symbol, ∀ text ∈ s.spellings, text.toList.length ≤ 2 := by
    intro s
    cases s <;> decide
  have := hl s _ h
  rw [String.toList_ofList, List.length_cons] at this
  rcases w with _ | ⟨d, _ | ⟨d', w⟩⟩
  · exact .inl rfl
  · exact .inr ⟨d, rfl⟩
  · simp at this

theorem length_le_of_symbol {s : Symbol} (hs : String.ofList (c :: w) ∈ s.spellings)
    (h : measure c (w ++ rest) = .ok ext) : w.length ≤ ext.more := by
  rcases length_spelling hs with rfl | ⟨d, rfl⟩
  · exact Nat.zero_le _
  · have hd : symbol? c (d :: rest) = some (s, 1) := symbol?_of_two hs
    -- No symbol of two characters begins with a minus sign.
    have hm : c ≠ '-' := by
      rintro rfl
      simp [symbol?] at hd
    rw [List.singleton_append, measure_of_symbol? hd fun hc => absurd hc hm] at h
    obtain rfl := Except.ok.inj h
    exact le_rfl

theorem length_le_of_letters (hc : isWordStart c = true) (hw : ∀ d ∈ w, isWordRest d = true)
    (h : measure c (w ++ rest) = .ok ext) : w.length ≤ ext.more := by
  rw [measure_of_isWordStart hc] at h
  obtain rfl := Except.ok.inj h
  exact length_le_length_takeWhile hw

/-- No word that the text begins with is longer than the first lexeme. -/
theorem length_le_of_word {k : TokenKind} (hw : Word k (c :: w))
    (h : measure c (w ++ rest) = .ok ext) : w.length ≤ ext.more := by
  generalize ht : c :: w = text at hw
  cases hw with
  | keyword hk =>
    obtain ⟨hl, hr⟩ := letters_of_spelling _ hk
    rw [← ht] at hl hr
    exact length_le_of_letters (by simpa using hl) (by simpa using hr) h
  | name hs hr =>
    obtain ⟨rfl, rfl⟩ := List.cons.inj ht
    exact length_le_of_letters hs hr h
  | integer hd =>
    subst ht
    exact length_le_of_digits hd h
  | @decimal ds fs d hd hf =>
    obtain ⟨d, ds, rfl⟩ := List.exists_cons_of_ne_nil hd.1
    obtain ⟨rfl, rfl⟩ := List.cons.inj ht
    exact length_le_of_decimal hd hf h
  | character hq hl =>
    obtain ⟨rfl, rfl⟩ := List.cons.inj ht
    rw [measure_of_character hq hl] at h
    obtain rfl := Except.ok.inj h
    exact le_rfl
  | bracketed hl =>
    obtain ⟨rfl, rfl⟩ := List.cons.inj ht
    rw [measure_of_bracketed hl] at h
    obtain rfl := Except.ok.inj h
    exact le_rfl
  | text hq =>
    obtain ⟨rfl, rfl⟩ := List.cons.inj ht
    rw [measure_of_quotes hq] at h
    obtain rfl := Except.ok.inj h
    exact le_rfl
  | boolean b =>
    obtain ⟨rfl, rfl⟩ := List.cons.inj ht
    rw [measure_of_quotes (by cases b <;> decide)] at h
    obtain rfl := Except.ok.inj h
    exact le_rfl
  | lineBreak =>
    obtain ⟨rfl, rfl⟩ := List.cons.inj ht
    exact Nat.zero_le _
  | symbol hs =>
    subst ht
    exact length_le_of_symbol hs h

theorem Candidate.ne_nil (h : Candidate kind text) : text ≠ [] := by
  rcases h with hw | ⟨hne, -⟩ | -
  · exact hw.ne_nil
  · exact hne
  · exact List.cons_ne_nil _ _

theorem HasForm.ne_nil (h : HasForm text) : text ≠ [] := by
  rcases h with ⟨kind, h⟩ | h
  · exact h.ne_nil
  · exact h.1

/-- Nothing that the text begins with and that has the form of a lexeme is longer
    than the first lexeme. -/
theorem length_le_of_hasForm (hf : HasForm (c :: w)) (h : measure c (w ++ rest) = .ok ext) :
    w.length ≤ ext.more := by
  rcases hf with ⟨kind, hc⟩ | hd
  · generalize ht : c :: w = text at hc
    rcases hc with hw | ⟨-, hs⟩ | hn
    · subst ht
      exact length_le_of_word hw h
    · subst ht
      rw [List.forall_mem_cons] at hs
      rw [measure_of_isSpace hs.1] at h
      obtain rfl := Except.ok.inj h
      exact length_le_length_takeWhile hs.2
    · obtain ⟨rfl, rfl⟩ := List.cons.inj ht
      rw [List.cons_append, measure_minus_minus] at h
      obtain rfl := Except.ok.inj h
      refine Nat.succ_le_succ (length_le_length_takeWhile fun d hd => ?_)
      rw [bne_iff_ne]
      rintro rfl
      exact hn hd
  · exact length_le_of_digits hd h

/-! ### The first lexeme is the longest -/

theorem Piece.candidate (h : Piece rest none text) : Candidate none text := by
  rcases h with _ | ⟨hne, hs⟩ | ⟨hn, -⟩
  · exact .blanks hne hs
  · exact .comment hn

/-- The first lexeme of a text can be read as what it is. -/
theorem candidate_of_measure (h : measure c cs = .ok ext) :
    Candidate ext.kind (c :: cs.take ext.more) := by
  have hp := piece_of_measure h
  rcases hk : ext.kind with _ | k
  · rw [hk] at hp
    exact hp.candidate
  · -- What is a token begins neither with a blank nor with a comment.
    have hs : isSpace c = false := by
      by_contra hs
      rw [measure_of_isSpace (by simpa using hs)] at h
      obtain rfl := Except.ok.inj h
      cases hk
    have hm : c = '-' → cs.head? ≠ some '-' := by
      rintro rfl hm
      obtain ⟨ds, rfl⟩ := List.head?_eq_some_iff.1 hm
      rw [measure_minus_minus] at h
      obtain rfl := Except.ok.inj h
      cases hk
    obtain ⟨k', hk', hw⟩ := word_of_measure h hs hm
    rw [← hk, hk']
    exact .word hw

/-- The first lexeme of a text is the longest one. -/
theorem longest_of_measure (h : measure c cs = .ok ext) :
    Longest (c :: cs) (c :: cs.take ext.more) where
  begins := (List.prefix_cons_inj c).2 (List.take_prefix _ _)
  form := .inl ⟨_, candidate_of_measure h⟩
  longest := by
    rintro other ⟨after, he⟩ hf
    obtain ⟨d, w, rfl⟩ := List.exists_cons_of_ne_nil hf.ne_nil
    obtain ⟨rfl, rfl⟩ := List.cons.inj he
    have hle : w.length ≤ ext.more := length_le_of_hasForm hf h
    have ha : w.length ≤ (w ++ after).length := by simp
    exact Nat.succ_le_succ (by rw [List.length_take]; exact Nat.le_min.2 ⟨hle, ha⟩)

/-! ### The longest lexeme is read -/

/-- A text that can be read as a lexeme is read as one when nothing follows. -/
theorem measure_of_candidate (h : Candidate kind (c :: w)) :
    measure c w = .ok ⟨kind, w.length⟩ := by
  generalize ht : c :: w = text at h
  rcases h with hw | ⟨-, hs⟩ | @⟨text, hn⟩
  · subst ht
    simpa using measure_of_word hw (Apart.nil _)
  · subst ht
    rw [List.forall_mem_cons] at hs
    rw [measure_of_isSpace hs.1, List.takeWhile_eq_self_iff.2 hs.2]
  · obtain ⟨rfl, rfl⟩ := List.cons.inj ht
    have hall : ∀ d ∈ text, (d != '\n') = true := fun d hd => by
      rw [bne_iff_ne]
      rintro rfl
      exact hn hd
    rw [measure_minus_minus, List.takeWhile_eq_self_iff.2 hall, List.length_cons]

/-- A text can be read as a lexeme of one kind only. -/
theorem Candidate.kind_eq {kind' : Option TokenKind} (h : Candidate kind text)
    (h' : Candidate kind' text) : kind = kind' := by
  obtain ⟨c, w, rfl⟩ := List.exists_cons_of_ne_nil h.ne_nil
  have := (measure_of_candidate h).symm.trans (measure_of_candidate h')
  simpa using this

theorem takeWhile_append_eq {α : Type} {p : α → Bool} {xs ys : List α}
    (h : ((xs ++ ys).takeWhile p).length ≤ xs.length) :
    (xs ++ ys).takeWhile p = xs.takeWhile p := by
  rw [List.takeWhile_append] at h ⊢
  split at h
  · rename_i hx
    have hy : ys.takeWhile p = [] := by
      rw [List.length_append] at h
      exact List.eq_nil_of_length_eq_zero (by omega)
    rw [if_pos hx, hy, List.append_nil, (List.takeWhile_prefix p).eq_of_length hx]
  · rename_i hx
    rw [if_neg hx]

/-- A number that goes on after a point still does when more text follows. -/
theorem EndsWhole.of_append (h : EndsWhole (w ++ rest)) : EndsWhole w := by
  intro ds hds
  have hd : (w ++ rest).dropWhile Char.isDigit = '.' :: (ds ++ rest) := by
    rw [List.dropWhile_append, hds]
    rfl
  have hf := h _ hd
  rw [List.takeWhile_eq_nil_iff] at hf ⊢
  intro hl
  simpa [List.getElem_append_left hl] using hf (by simp; omega)

/-- Digits that are the longest lexeme of a text fit when they fit alone. -/
theorem number_ne_error_of_longest {cause : LexicalCause} (hc : c.isDigit = true)
    (hw : number c w = .ok ext) (hl : Longest (c :: (w ++ rest)) (c :: w)) :
    number c (w ++ rest) ≠ .error cause := by
  intro h
  obtain ⟨he, hn, -⟩ := number_eq_error h
  -- All the digits that the text begins with are in the lexeme.
  have hle : ((w ++ rest).takeWhile Char.isDigit).length ≤ w.length :=
    Nat.le_of_succ_le_succ (hl.longest (c :: (w ++ rest).takeWhile Char.isDigit)
      ((List.prefix_cons_inj c).2 (List.takeWhile_prefix _)) (.inr (isDigits_cons_takeWhile hc)))
  rw [takeWhile_append_eq hle] at hn
  rw [number_of_endsWhole he.of_append, hn] at hw
  cases hw

theorem measure_ne_error_of_longest {cause : LexicalCause} (h : Candidate kind (c :: w))
    (hl : Longest (c :: (w ++ rest)) (c :: w)) : measure c (w ++ rest) ≠ .error cause := by
  by_cases hc : c.isDigit = true
  · have hw := measure_of_candidate h
    rw [measure_of_isDigit hc] at hw ⊢
    exact number_ne_error_of_longest hc hw hl
  · generalize ht : c :: w = text at h
    rcases h with hw | ⟨-, hs⟩ | -
    · subst ht
      exact measure_ne_error_of_word hw (by simpa using hc)
    · subst ht
      rw [measure_of_isSpace (hs c List.mem_cons_self)]
      simp
    · obtain ⟨rfl, rfl⟩ := List.cons.inj ht
      rw [List.cons_append, measure_minus_minus]
      simp

/-- The longest lexeme of a text is cut off. -/
theorem cut_of_longest (h : Candidate kind text) (hl : Longest (text ++ rest) text) :
    cut (text ++ rest) = (⟨kind, text⟩ :: (cut rest).1, (cut rest).2) := by
  obtain ⟨c, w, rfl⟩ := List.exists_cons_of_ne_nil h.ne_nil
  rw [List.cons_append] at hl ⊢
  rcases hm : measure c (w ++ rest) with cause | ext
  · exact absurd hm (measure_ne_error_of_longest h hl)
  · -- Two longest lexemes are of one length, and so they are the same.
    have hl' := longest_of_measure hm
    have hlen : (c :: (w ++ rest).take ext.more).length = (c :: w).length :=
      Nat.le_antisymm (hl.longest _ hl'.begins hl'.form) (hl'.longest _ hl.begins hl.form)
    have htake : (w ++ rest).take ext.more = w := by
      have hp : (w ++ rest).take ext.more <+: w :=
        List.prefix_of_prefix_length_le (List.take_prefix _ _) (List.prefix_append _ _)
          (Nat.le_of_succ_le_succ hlen.le)
      exact hp.eq_of_length (Nat.succ.inj hlen)
    have hdrop : (w ++ rest).drop ext.more = rest := by
      have := List.take_append_drop ext.more (w ++ rest)
      rw [htake] at this
      exact List.append_cancel_left this
    have hk : ext.kind = kind := by
      have hc := candidate_of_measure hm
      rw [htake] at hc
      exact hc.kind_eq h
    rw [cut_of_measure hm, htake, hdrop, hk]

/-! ### Reading to the end and to a fault -/

/-- The cut of a text goes on from where a reading leaves off. -/
theorem Reading.cut_eq {source : List Char} {ls : List Lexeme} (h : Reading source ls rest) :
    cut source = (ls ++ (cut rest).1, (cut rest).2) := by
  induction h with
  | stop source => rfl
  | step hc hl _ ih =>
    rw [cut_of_longest hc hl, ih]
    rfl

/-- The cut of a text is a reading. -/
theorem reading_of_cut {source : List Char} {ls : List Lexeme}
    {fault : Option (LexicalCause × List Char)} (h : cut source = (ls, fault)) :
    Reading source ls ((fault.map Prod.snd).getD []) := by
  fun_induction cut source generalizing ls fault with
  | case1 =>
    obtain ⟨rfl, rfl⟩ := Prod.mk.inj h
    exact .stop []
  | case2 c cs =>
    obtain ⟨rfl, rfl⟩ := Prod.mk.inj h
    exact .stop (c :: cs)
  | case3 c cs extent hm lexemes fault hc ih =>
    obtain ⟨rfl, rfl⟩ := Prod.mk.inj h
    have ht : c :: cs = (c :: cs.take extent.more) ++ cs.drop extent.more := by simp
    have hl := longest_of_measure hm
    rw [ht] at hl ⊢
    exact .step (candidate_of_measure hm) hl (ih hc)

/-- What is the longest lexeme of a text is so of every beginning of the text that it
    is a part of. -/
theorem Longest.of_prefix {source before lexeme : List Char} (h : Longest source lexeme)
    (hb : before <+: source) (hl : lexeme <+: before) : Longest before lexeme where
  begins := hl
  form := h.form
  longest other ho hf := h.longest other (ho.trans hb) hf

theorem Reading.text_append {source : List Char} {ls : List Lexeme} (h : Reading source ls rest) :
    source = ls.flatMap Lexeme.text ++ rest := by
  induction h with
  | stop source => rfl
  | step _ _ _ ih => rw [List.flatMap_cons, List.append_assoc, ← ih]

/-- What was read of a text is read in the same way when nothing follows. -/
theorem Reading.alone {source : List Char} {ls : List Lexeme} (h : Reading source ls rest) :
    Reading (ls.flatMap Lexeme.text) ls [] := by
  induction h with
  | stop source => exact .stop []
  | step hc hl hr ih =>
    rw [List.flatMap_cons]
    refine .step hc (hl.of_prefix ?_ (List.prefix_append _ _)) ih
    rw [List.prefix_append_right_inj, hr.text_append]
    exact List.prefix_append _ _

end Lexeme

end Tudlo
