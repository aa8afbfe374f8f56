import Tudlo.Proofs.Token.Layout

/-!
# Scanning undoes spelling

Words that are written one after the other, with separators between them, are
scanned as the tokens that they are (`scan_separated`). How they are laid out makes
no difference, but for the tokens of two words: these are read where nothing but
spaces and tabs is between the two.

* `Separator`: blanks, and comments with the line feeds that end them;
* `SeparatedWord`: a word and the separator after it;
* `SeparatedWord.tokens`: the tokens that a list of words is.

A separator between words starts with a blank. After the last word it may start
with a comment at once, unless that word is a minus sign: three minus signs are a
comment from the first of them on (`not_readsBack_minus`).
-/

namespace Tudlo

/-! ### Words and separators -/

/-- The text may separate words: it is made of blanks, and of comments with the
    line feeds that end them. -/
inductive Separator : List Char → Prop
  | nil : Separator []
  | space {c : Char} {s : List Char} : Lexeme.isSpace c = true → Separator s → Separator (c :: s)
  | comment {text s : List Char} : '\n' ∉ text → Separator s →
      Separator ('-' :: '-' :: (text ++ '\n' :: s))

/-- A word, and what separates it from the next one. -/
structure SeparatedWord where
  /-- The token that the word is on its own. -/
  kind : TokenKind
  text : List Char
  /-- What stands after the word. -/
  separator : List Char
  isWord : Word kind text
  isSeparator : Separator separator

/-- The keywords that are two words. -/
def Keyword.pairs : List Keyword :=
  [.kungDili, .kungWala, .alangSa]

/-- The keyword that the two texts are together. -/
def Keyword.ofHalves? (first second : List Char) : Option Keyword :=
  pairs.find? (·.halves == some (String.ofList first, String.ofList second))

namespace SeparatedWord

/-- The keyword that a word and the next one are together, which they are only with
    nothing but spaces and tabs between them. -/
def joined? (w next : SeparatedWord) : Option Keyword :=
  if w.separator.all Lexeme.isInline then Keyword.ofHalves? w.text next.text else none

/-- The tokens that the words are, with their texts. -/
def tokens : List SeparatedWord → List (TokenKind × List Char)
  | w :: next :: ws =>
    match w.joined? next with
    | some k => (.keyword k, w.text ++ w.separator ++ next.text) :: tokens ws
    | none => (w.kind, w.text) :: tokens (next :: ws)
  | [w] => [(w.kind, w.text)]
  | [] => []

/-- The text of the words. -/
def written (ws : List SeparatedWord) : List Char :=
  ws.flatMap fun w => w.text ++ w.separator

/-- There is a blank after every word but the last. -/
def Spaced (ws : List SeparatedWord) : Prop :=
  ∀ w ∈ ws.dropLast, ∃ c ∈ w.separator.head?, Lexeme.isSpace c = true

/-- The last word is not a minus sign with a comment right after it. -/
def EndsClear (ws : List SeparatedWord) : Prop :=
  ∀ w ∈ ws.getLast?, w.text = ['-'] → w.separator.head? ≠ some '-'

/-- The words are scanned, when `lead` stands before them, and what is found are
    the tokens that they are. -/
def ReadsBack (lead : List Char) (ws : List SeparatedWord) : Prop :=
  ∃ ts, scan (String.ofList (lead ++ written ws)) = .ok ts ∧
    ts.map (fun t => (t.kind, t.lexeme.toList)) = tokens ws ++ [(.ending, [])]

end SeparatedWord

/-! ### Cutting words and separators -/

namespace Lexeme

variable {s rest text : List Char}

/-- A word that is apart from what follows is cut off. -/
theorem cut_word {k : TokenKind} (h : Word k text) (hr : Apart text rest) :
    cut (text ++ rest) = (⟨some k, text⟩ :: (cut rest).1, (cut rest).2) := by
  obtain ⟨c, w, rfl⟩ := List.exists_cons_of_ne_nil h.ne_nil
  rw [List.cons_append, cut_of_measure (measure_of_word h hr)]
  simp

/-- A word on its own is scanned as its token. -/
theorem scan_word {k : TokenKind} (h : Word k text) : scan (String.ofList text) =
    .ok [⟨k, String.ofList text, .start⟩, ⟨.ending, "", Position.start.after text⟩] := by
  have hc := cut_word h (Apart.nil text)
  rw [List.append_nil, cut_nil] at hc
  rw [scan_of_cut (by rw [String.toList_ofList, hc])]
  rfl

/-- A comment is cut off at the end of its line. -/
theorem cut_comment (ht : '\n' ∉ text) (hr : ∀ c ∈ rest.head?, c = '\n') :
    cut ('-' :: '-' :: text ++ rest) =
      (⟨none, '-' :: '-' :: text⟩ :: (cut rest).1, (cut rest).2) := by
  have hw : ∀ c ∈ '-' :: text, (c != '\n') = true := by
    simp only [List.forall_mem_cons, bne_iff_ne]
    exact ⟨by decide, fun c hc he => ht (he ▸ hc)⟩
  have hn : ∀ c ∈ rest.head?, (c != '\n') = false := fun c hc => by simp [hr c hc]
  have hm : measure '-' ('-' :: text ++ rest) = .ok ⟨none, ('-' :: text).length⟩ := by
    rw [measure, takeWhile_append_of_head? hw hn]
    rfl
  rw [List.cons_append, cut_of_measure hm]
  simp

end Lexeme

/-- The lexemes of a separator: all the blanks in a row are one, and so is every
    comment. -/
inductive Lexeme.Trivia : List Char → List Lexeme → Prop
  | nil : Trivia [] []
  | blanks {s rest : List Char} {ls : List Lexeme} : s ≠ [] → (∀ c ∈ s, isSpace c = true) →
      (∀ c ∈ rest.head?, isSpace c = false) → Trivia rest ls → Trivia (s ++ rest) (⟨none, s⟩ :: ls)
  | comment {text rest : List Char} {ls : List Lexeme} : '\n' ∉ text → rest.head? = some '\n' →
      Trivia rest ls → Trivia ('-' :: '-' :: text ++ rest) (⟨none, '-' :: '-' :: text⟩ :: ls)

namespace Lexeme.Trivia

variable {s rest : List Char} {ls : List Lexeme}

/-- A blank before a separator joins the blanks that it starts with. -/
theorem space {c : Char} (hc : isSpace c = true) (h : Trivia s ls) : ∃ ls, Trivia (c :: s) ls := by
  have hone : ∀ d ∈ [c], isSpace d = true := by simpa using hc
  cases h with
  | nil => exact ⟨_, .blanks (List.cons_ne_nil c []) hone (by simp) .nil⟩
  | @blanks b _ _ _ hs hr h =>
    exact ⟨_, .blanks (List.cons_ne_nil c b) (List.forall_mem_cons.2 ⟨hc, hs⟩) hr h⟩
  | comment ht hr h =>
    exact ⟨_, .blanks (List.cons_ne_nil c []) hone (by simp; decide) (.comment ht hr h)⟩

theorem kind_eq_none (h : Trivia s ls) : ∀ l ∈ ls, l.kind = none := by
  induction h with
  | nil => simp
  | blanks _ _ _ _ ih => exact List.forall_mem_cons.2 ⟨rfl, ih⟩
  | comment _ _ _ ih => exact List.forall_mem_cons.2 ⟨rfl, ih⟩

/-- Spaces and tabs alone are one lexeme. -/
theorem eq_singleton (h : Trivia s ls) (hne : s ≠ []) (hi : ∀ c ∈ s, isInline c = true) :
    ls = [⟨none, s⟩] := by
  have hminus : ∀ {t : List Char}, (∀ c ∈ '-' :: t, isInline c = true) → False :=
    fun h => absurd (h '-' List.mem_cons_self) (by decide)
  cases h with
  | nil => exact absurd rfl hne
  | blanks _ _ hr h =>
    rw [List.forall_mem_append] at hi
    -- After the blanks there is nothing more, or a comment.
    cases h with
    | nil => rw [List.append_nil]
    | @blanks b _ _ hb hs _ _ =>
      obtain ⟨c, b, rfl⟩ := List.exists_cons_of_ne_nil hb
      have := hr c rfl
      rw [hs c List.mem_cons_self] at this
      cases this
    | comment => exact (hminus hi.2).elim
  | comment => exact (hminus hi).elim

/-- A separator of a single lexeme is the text of that lexeme. -/
theorem text_of_singleton {l : Lexeme} (h : Trivia s [l]) : l.text = s := by
  cases h with
  | blanks _ _ _ h =>
    cases h
    rw [List.append_nil]
  | comment _ hr h =>
    cases h
    cases hr

/-- Separators are cut off, whatever follows them, as long as that is not a blank. -/
theorem cut_append (h : Trivia s ls) (hr : ∀ c ∈ rest.head?, isSpace c = false) :
    cut (s ++ rest) = (ls ++ (cut rest).1, (cut rest).2) := by
  induction h with
  | nil => rfl
  | @blanks b after _ hb hs hn _ ih =>
    have : ∀ c ∈ (after ++ rest).head?, isSpace c = false := by
      cases after with
      | nil => exact hr
      | cons d after => exact hn
    rw [List.append_assoc, cut_blanks hb hs this, ih]
    rfl
  | @comment text after _ ht hn _ ih =>
    have : ∀ c ∈ (after ++ rest).head?, c = '\n' := by
      simp [List.head?_append, hn]
    rw [List.append_assoc, cut_comment ht this, ih]
    rfl

end Lexeme.Trivia

theorem Separator.exists_trivia {s : List Char} (h : Separator s) :
    ∃ ls, Lexeme.Trivia s ls := by
  induction h with
  | nil => exact ⟨[], .nil⟩
  | space hc _ ih =>
    obtain ⟨ls, ih⟩ := ih
    exact ih.space hc
  | comment ht _ ih =>
    obtain ⟨ls, ih⟩ := ih
    obtain ⟨ls, h⟩ := ih.space (c := '\n') rfl
    exact ⟨_, .comment ht rfl h⟩

theorem Separator.isSpace_or_minus {s : List Char} (h : Separator s) :
    ∀ c ∈ s.head?, Lexeme.isSpace c = true ∨ c = '-' := by
  cases h with
  | nil => simp
  | space hc _ => simp [hc]
  | comment => simp

/-! ### Putting words together -/

namespace Lexeme

/-- The tokens among lexemes, with their texts. -/
def spelled (ls : List Lexeme) : List (TokenKind × List Char) :=
  ls.filterMap fun l => l.kind.map (·, l.text)

theorem spelled_cons {l : Lexeme} {k : TokenKind} (h : l.kind = some k) (ls : List Lexeme) :
    spelled (l :: ls) = (k, l.text) :: spelled ls := by
  simp [spelled, h]

theorem spelled_append_of_none {ls : List Lexeme} (h : ∀ l ∈ ls, l.kind = none)
    (rest : List Lexeme) : spelled (ls ++ rest) = spelled rest := by
  have hn : ls.filterMap (fun l => l.kind.map (·, l.text)) = [] :=
    List.filterMap_eq_nil_iff.2 fun l hl => by simp [h l hl]
  rw [spelled, List.filterMap_append, hn]
  rfl

theorem map_tokens (p : Position) (ls : List Lexeme) :
    (tokens p ls).map (fun t => (t.kind, t.lexeme.toList)) = spelled ls ++ [(.ending, [])] := by
  fun_induction tokens p ls with
  | case1 => rfl
  | case2 p l rest kind h ih => simp [spelled, h, ih]
  | case3 p l rest h ih => simp [spelled, h, ih]

/-! ### Tokens of two words -/

theorem ofHalves?_eq_some {k : Keyword} {first second : List Char} :
    Keyword.ofHalves? first second = some k ↔
      k.halves = some (String.ofList first, String.ofList second) := by
  constructor
  · intro h
    simpa using List.find?_some h
  · intro h
    rw [Keyword.ofHalves?, ← h]
    cases k <;> first
      | rfl
      | cases h

/-- The word consists of letters. -/
def IsLetters (word : String) : Bool :=
  word.toList.head?.all isWordStart && word.toList.tail.all isWordRest

/-- Such a word is the keyword or the name with these letters. -/
theorem kind_of_isLetters {k : TokenKind} {word : String} (hw : IsLetters word = true)
    (h : Word k word.toList) : k = wordKind word := by
  obtain ⟨c, w, hcw⟩ := List.exists_cons_of_ne_nil h.ne_nil
  rw [IsLetters, hcw, Bool.and_eq_true] at hw
  rw [hcw] at h
  have hr := Apart.nil (c :: w)
  have := (measure_of_word h hr).symm.trans
    (measure_of_letters (by simpa using hw.1) (by simpa using hw.2) hr)
  rw [← hcw, String.ofList_toList] at this
  simpa using this

/-- The halves of a keyword are words that are put together. -/
theorem pair?_of_halves {k : Keyword} {first second : String}
    (h : k.halves = some (first, second)) : IsLetters first = true ∧ IsLetters second = true ∧
      pair? (wordKind first) (wordKind second) = some (.keyword k) := by
  cases k with
  | kungDili =>
    cases h
    decide
  | kungWala =>
    cases h
    decide
  | alangSa =>
    cases h
    decide
  | _ => cases h

/-- Two words are a token together when their texts are its halves. -/
theorem pair?_of_words {a b : TokenKind} {first second : List Char} (ha : Word a first)
    (hb : Word b second) : pair? a b = (Keyword.ofHalves? first second).map .keyword := by
  ext kind
  rw [Option.map_eq_some_iff]
  constructor
  · intro h
    obtain ⟨k, one, other, rfl, hk, hone, hother⟩ := halves_of_pair? h
    refine ⟨k, ofHalves?_eq_some.2 ?_, rfl⟩
    rw [hk, hone first (.word ha), hother second (.word hb), String.ofList_toList,
      String.ofList_toList]
  · rintro ⟨k, h, rfl⟩
    obtain ⟨hf, hs, hp⟩ := pair?_of_halves (ofHalves?_eq_some.1 h)
    have hak : a = wordKind (String.ofList first) :=
      kind_of_isLetters hf (by rwa [String.toList_ofList])
    have hbk : b = wordKind (String.ofList second) :=
      kind_of_isLetters hs (by rwa [String.toList_ofList])
    rw [hak, hbk, hp]

end Lexeme

/-! ### Words one after the other -/

namespace SeparatedWord

theorem EndsClear.tail {w : SeparatedWord} {ws : List SeparatedWord} (h : EndsClear (w :: ws)) :
    EndsClear ws := by
  cases ws with
  | nil => simp [EndsClear]
  | cons next ws => simpa [EndsClear] using h

theorem Spaced.head {w next : SeparatedWord} {ws : List SeparatedWord}
    (h : Spaced (w :: next :: ws)) : ∃ c ∈ w.separator.head?, Lexeme.isSpace c = true :=
  h w (by simp)

theorem Spaced.separator_ne_nil {w next : SeparatedWord} {ws : List SeparatedWord}
    (h : Spaced (w :: next :: ws)) : w.separator ≠ [] := by
  obtain ⟨c, hc, -⟩ := h.head
  intro hn
  rw [hn] at hc
  cases hc

theorem Spaced.tail {w : SeparatedWord} {ws : List SeparatedWord} (h : Spaced (w :: ws)) :
    Spaced ws := by
  cases ws with
  | nil => simp [Spaced]
  | cons next ws => exact fun v hv => h v (List.mem_cons_of_mem w hv)

/-- The lexeme that a word is. -/
def lexeme (w : SeparatedWord) : Lexeme :=
  ⟨some w.kind, w.text⟩

/-- The lexemes of the words and their separators. -/
inductive Cut : List SeparatedWord → List Lexeme → Prop
  | nil : Cut [] []
  | cons {w : SeparatedWord} {ws : List SeparatedWord} {trivia ls : List Lexeme} :
      Lexeme.Trivia w.separator trivia → Cut ws ls → Cut (w :: ws) (w.lexeme :: (trivia ++ ls))

theorem fused?_lexeme (w next : SeparatedWord) {gap : Lexeme} (hk : gap.kind = none)
    (ht : gap.text = w.separator) :
    Lexeme.fused? w.lexeme gap next.lexeme = (w.joined? next).map .keyword := by
  simp only [Lexeme.fused?, lexeme, hk, ht, joined?, Lexeme.pair?_of_words w.isWord next.isWord]
  split <;> rfl

/-- A word stands on its own when it is not joined with the next one. -/
theorem fuse_of_joined?_eq_none {w next : SeparatedWord} {trivia ls : List Lexeme}
    (ht : Lexeme.Trivia w.separator trivia) (h : w.joined? next = none) :
    Lexeme.fuse (w.lexeme :: (trivia ++ next.lexeme :: ls)) =
      w.lexeme :: (trivia ++ Lexeme.fuse (next.lexeme :: ls)) := by
  refine Lexeme.fuse_of_fused?_eq_none rfl ht.kind_eq_none (fun g hg => ?_) ls
  subst hg
  rw [fused?_lexeme w next (ht.kind_eq_none g List.mem_cons_self) ht.text_of_singleton, h]
  rfl

/-- A word and the next one are put together when they are joined. -/
theorem fuse_of_joined?_eq_some {w next : SeparatedWord} {k : Keyword} {trivia ls : List Lexeme}
    (ht : Lexeme.Trivia w.separator trivia) (hne : w.separator ≠ [])
    (h : w.joined? next = some k) :
    Lexeme.fuse (w.lexeme :: (trivia ++ next.lexeme :: ls)) =
      ⟨some (.keyword k), w.text ++ w.separator ++ next.text⟩ :: Lexeme.fuse ls := by
  have hi : ∀ c ∈ w.separator, Lexeme.isInline c = true := by
    by_contra hi
    rw [joined?, if_neg (by simpa using hi)] at h
    cases h
  rw [ht.eq_singleton hne hi, List.singleton_append, Lexeme.fuse, fused?_lexeme w next rfl rfl, h]
  rfl

/-- The words are put together as they should be. -/
theorem Cut.spelled_fuse {ws : List SeparatedWord} {ls : List Lexeme} (h : Cut ws ls)
    (hs : Spaced ws) : Lexeme.spelled (Lexeme.fuse ls) = tokens ws := by
  fun_induction tokens ws generalizing ls with
  | case1 w next ws k hj ih =>
    rcases h with _ | ⟨ht, _ | ⟨ht', h⟩⟩
    rw [fuse_of_joined?_eq_some ht hs.separator_ne_nil hj, Lexeme.spelled_cons rfl,
      Lexeme.fuse_append_of_none ht'.kind_eq_none,
      Lexeme.spelled_append_of_none ht'.kind_eq_none, ih h hs.tail.tail]
  | case2 w next ws hj ih =>
    rcases h with _ | ⟨ht, h⟩
    have ih := ih h hs.tail
    rcases h with _ | ⟨ht', h⟩
    rw [fuse_of_joined?_eq_none ht hj, Lexeme.spelled_cons rfl,
      Lexeme.spelled_append_of_none ht.kind_eq_none, ih]
    rfl
  | case3 w =>
    rcases h with _ | ⟨ht, ⟨⟩⟩
    rw [List.append_nil, Lexeme.fuse_cons_of_none ht.kind_eq_none, Lexeme.spelled_cons rfl]
    have := Lexeme.spelled_append_of_none ht.kind_eq_none []
    rw [List.append_nil] at this
    rw [this]
    rfl
  | case4 =>
    cases h
    rfl

/-- No blank is before the first word. -/
theorem not_isSpace_head_written (ws : List SeparatedWord) :
    ∀ c ∈ (written ws).head?, Lexeme.isSpace c = false := by
  cases ws with
  | nil => simp [written]
  | cons w ws =>
    obtain ⟨c, cs, hcs⟩ := List.exists_cons_of_ne_nil w.isWord.ne_nil
    have hw : Word w.kind (c :: cs) := hcs ▸ w.isWord
    simpa [written, hcs] using hw.not_isSpace

/-- What follows a word does not go on with it. -/
theorem apart {w : SeparatedWord} {ws : List SeparatedWord} (hs : Spaced (w :: ws))
    (hc : EndsClear (w :: ws)) : Apart w.text (w.separator ++ written ws) := by
  refine .of_head ?_
  cases ws with
  | nil =>
    intro d hd
    rw [written, List.flatMap_nil, List.append_nil] at hd
    rcases w.isSeparator.isSpace_or_minus d hd with h | rfl
    · exact .inl h
    · exact .inr ⟨rfl, fun h => hc w rfl h hd⟩
  | cons next ws =>
    obtain ⟨c, hm, hsp⟩ := hs.head
    intro d hd
    rw [List.head?_append, hm] at hd
    cases hd
    exact .inl hsp

/-- The text of the words is cut to its end. -/
theorem exists_cut {ws : List SeparatedWord} (hs : Spaced ws) (hc : EndsClear ws) :
    ∃ ls, Cut ws ls ∧ Lexeme.cut (written ws) = (ls, none) := by
  induction ws with
  | nil => exact ⟨[], .nil, by rw [written, List.flatMap_nil, Lexeme.cut]⟩
  | cons w ws ih =>
    obtain ⟨ls, hls, hcut⟩ := ih hs.tail hc.tail
    obtain ⟨trivia, ht⟩ := w.isSeparator.exists_trivia
    refine ⟨_, .cons ht hls, ?_⟩
    have hw : written (w :: ws) = w.text ++ (w.separator ++ written ws) := by
      simp [written]
    rw [hw, Lexeme.cut_word w.isWord (apart hs hc),
      ht.cut_append (not_isSpace_head_written ws), hcut]
    rfl

end SeparatedWord

/-- Scanning undoes spelling: words that are separated, with a blank after every
    word but the last, are scanned as the tokens that they are. -/
theorem scan_separated {lead : List Char} {ws : List SeparatedWord} (hl : Separator lead)
    (hs : SeparatedWord.Spaced ws) (hc : SeparatedWord.EndsClear ws) :
    SeparatedWord.ReadsBack lead ws := by
  obtain ⟨trivia, ht⟩ := hl.exists_trivia
  obtain ⟨ls, hls, hcut⟩ := SeparatedWord.exists_cut hs hc
  have hscan : scan (String.ofList (lead ++ SeparatedWord.written ws)) =
      .ok (Lexeme.tokens .start (Lexeme.fuse (trivia ++ ls))) := by
    apply scan_of_cut
    rw [String.toList_ofList, ht.cut_append (SeparatedWord.not_isSpace_head_written ws), hcut]
  refine ⟨_, hscan, ?_⟩
  rw [Lexeme.map_tokens, Lexeme.fuse_append_of_none ht.kind_eq_none,
    Lexeme.spelled_append_of_none ht.kind_eq_none, hls.spelled_fuse hs]

/-- The words of `KUNG DILI`, once joined and once on two lines, and a minus sign
    and a name with comments after them. -/
def denials : List SeparatedWord :=
  have kung : Word (.keyword .kung) "KUNG".toList := .keyword (by decide)
  have dili : Word (.keyword .dili) "DILI".toList := .keyword (by decide)
  have comment : Separator ('-' :: '-' :: (['='] ++ '\n' :: [])) := .comment (by decide) .nil
  [⟨_, _, [' ', '\t'], kung, .space rfl (.space rfl .nil)⟩, ⟨_, _, ['\n'], dili, .space rfl .nil⟩,
   ⟨_, _, [' ', '\n'], kung, .space rfl (.space rfl .nil)⟩, ⟨_, _, [' '], dili, .space rfl .nil⟩,
   ⟨.symbol .minus, ['-'], _, .symbol (by decide), .space (c := ' ') rfl comment⟩,
   ⟨_, ['x'], _, .name rfl (by simp) (by decide), comment⟩]

/-- These words are scanned as the tokens that they are. -/
theorem scan_separated_denials : Separator [] ∧ SeparatedWord.Spaced denials ∧
    SeparatedWord.EndsClear denials ∧ SeparatedWord.ReadsBack [] denials ∧
    SeparatedWord.tokens denials =
      [(.keyword .kungDili, "KUNG \tDILI".toList), (.keyword .kung, "KUNG".toList),
       (.keyword .dili, "DILI".toList), (.symbol .minus, ['-']), (.name "x", ['x'])] := by
  have hs : SeparatedWord.Spaced denials := by
    simp [SeparatedWord.Spaced, denials, Lexeme.isSpace]
  have hc : SeparatedWord.EndsClear denials := by
    simp [SeparatedWord.EndsClear, denials]
  exact ⟨.nil, hs, hc, scan_separated .nil hs hc, by decide⟩

/-- A minus sign with a comment right after it. -/
def minusBeforeComment : SeparatedWord where
  kind := .symbol .minus
  text := ['-']
  separator := ['-', '-', '\n']
  isWord := .symbol (by decide)
  isSeparator := (.comment (by simp) .nil : Separator ('-' :: '-' :: ([] ++ '\n' :: [])))

/-- The last word has to be clear of comments when it is a minus sign: the minus
    signs that follow make it the start of a comment. -/
theorem not_readsBack_minus : Separator [] ∧ SeparatedWord.Spaced [minusBeforeComment] ∧
    ¬ SeparatedWord.ReadsBack [] [minusBeforeComment] := by
  refine ⟨.nil, by simp [SeparatedWord.Spaced], ?_⟩
  rintro ⟨ts, hscan, htokens⟩
  have he : scan (String.ofList ([] ++ SeparatedWord.written [minusBeforeComment])) =
      .ok [⟨.ending, "", ⟨2, 1⟩⟩] := by decide +kernel
  obtain rfl := Except.ok.inj (he.symm.trans hscan)
  exact absurd (congrArg List.length htokens) (by decide)

end Tudlo
