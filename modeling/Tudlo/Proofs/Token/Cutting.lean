import Tudlo.Proofs.Token.LineIndex
import Tudlo.Proofs.Token.Recognition

/-!
# Cutting a text into lexemes

A source text is cut into lexemes, one after the other and without leaving anything
out. This is the view of scanning that is good to reason about: there are no byte
offsets in it, and the tokens of two words are put together after the cut. That the
scan finds the same tokens is shown in `Tudlo.Proofs.Token.Scanning`.

* `Lexeme.cut` repeats `Lexeme.measure` to the end of the text, or to the first place
  where no lexeme starts. The lexemes found and what remains after them make up the
  text (`Lexeme.text_cut`);
* `Lexeme.fuse` puts the tokens of two words together, which does not change the
  text either (`Lexeme.text_fuse`);
* `Lexeme.tokens` gives the tokens among the lexemes their positions.
-/

namespace Tudlo

/-- A piece of a source text. -/
structure Lexeme where
  /-- The token that the piece is, or nothing for blanks and comments. -/
  kind : Option TokenKind
  /-- The characters of the piece. -/
  text : List Char
  deriving DecidableEq

namespace Lexeme

/-- The lexemes of a text, up to the first place where none starts. What is
    wrong there is given too, with the text that remains. -/
def cut : List Char → List Lexeme × Option (LexicalCause × List Char)
  | [] => ([], none)
  | c :: cs =>
    match measure c cs with
    | .error cause => ([], some (cause, c :: cs))
    | .ok extent =>
      let (lexemes, fault) := cut (cs.drop extent.more)
      (⟨extent.kind, c :: cs.take extent.more⟩ :: lexemes, fault)
  termination_by cs => cs.length
  decreasing_by simp only [List.length_drop, List.length_cons]; omega

/-- The token that two lexemes are together, when `gap` is all that stands
    between them. -/
def fused? (first gap second : Lexeme) : Option TokenKind :=
  match first.kind, gap.kind, second.kind with
  | some a, none, some b => if gap.text.all isInline then pair? a b else none
  | _, _, _ => none

/-- The lexemes with the two-word tokens put together. -/
def fuse : List Lexeme → List Lexeme
  | first :: gap :: second :: rest =>
    match fused? first gap second with
    | some kind => ⟨some kind, first.text ++ gap.text ++ second.text⟩ :: fuse rest
    | none => first :: fuse (gap :: second :: rest)
  | lexemes => lexemes

/-- The tokens among `lexemes`, when they start at `p`. -/
def tokens (p : Position) : List Lexeme → List Token
  | [] => [⟨.ending, "", p⟩]
  | l :: rest =>
    match l.kind with
    | some kind => ⟨kind, String.ofList l.text, p⟩ :: tokens (p.after l.text) rest
    | none => tokens (p.after l.text) rest

/-! ### Nothing is left out -/

/-- The lexemes found and what remains after them make up the text. -/
theorem text_cut (cs : List Char) :
    (cut cs).1.flatMap text ++ ((cut cs).2.map Prod.snd).getD [] = cs := by
  fun_induction cut cs with
  | case1 => rfl
  | case2 => rfl
  | case3 c cs extent _ lexemes fault h ih =>
    rw [h] at ih
    simp [ih]

/-- A text that is cut to its end is made up of its lexemes. -/
theorem text_of_cut {cs : List Char} {ls : List Lexeme} (h : cut cs = (ls, none)) :
    ls.flatMap text = cs := by
  simpa [h] using text_cut cs

/-- Where the cut stops, the lexemes are before what remains. -/
theorem text_of_cut_fault {cs rest : List Char} {ls : List Lexeme} {cause : LexicalCause}
    (h : cut cs = (ls, some (cause, rest))) : ls.flatMap text ++ rest = cs := by
  simpa [h] using text_cut cs

/-- Putting tokens together does not change the text. -/
theorem text_fuse (lexemes : List Lexeme) :
    (fuse lexemes).flatMap text = lexemes.flatMap text := by
  fun_induction fuse lexemes with
  | case1 first gap second rest kind _ ih => simp [ih]
  | case2 first gap second rest _ ih => simp [ih]
  | case3 => rfl

/-- The last token is the end, and it stands after all lexemes. -/
theorem getLast?_tokens (p : Position) (lexemes : List Lexeme) :
    (tokens p lexemes).getLast? = some ⟨.ending, "", p.after (lexemes.flatMap text)⟩ := by
  fun_induction tokens p lexemes with
  | case1 => rfl
  | case2 p l rest kind h ih => simp [List.getLast?_cons, ih]
  | case3 p l rest h ih => simpa using ih

/-! ### The first lexemes -/

theorem cut_nil : cut [] = ([], none) := by
  rw [cut]

theorem cut_of_measure {c : Char} {cs : List Char} {extent : Extent}
    (h : measure c cs = .ok extent) :
    cut (c :: cs) = (⟨extent.kind, c :: cs.take extent.more⟩ :: (cut (cs.drop extent.more)).1,
      (cut (cs.drop extent.more)).2) := by
  rw [cut, h]

/-- Blanks are cut off together. -/
theorem cut_blanks {s rest : List Char} (hne : s ≠ []) (hs : ∀ c ∈ s, isSpace c = true)
    (hr : ∀ c ∈ rest.head?, isSpace c = false) :
    cut (s ++ rest) = (⟨none, s⟩ :: (cut rest).1, (cut rest).2) := by
  obtain ⟨c, s, rfl⟩ := List.exists_cons_of_ne_nil hne
  rw [List.forall_mem_cons] at hs
  have hm : measure c (s ++ rest) = .ok ⟨none, s.length⟩ := by
    rw [measure, if_pos hs.1, takeWhile_append_of_head? hs.2 hr]
  rw [List.cons_append, cut_of_measure hm]
  simp

/-! ### Tokens of two words -/

theorem pair?_cases {a b kind : TokenKind} (h : pair? a b = some kind) :
    a = .keyword .kung ∧ b = .keyword .dili ∧ kind = .keyword .kungDili ∨
      a = .keyword .kung ∧ b = .name "WALA" ∧ kind = .keyword .kungWala ∨
      a = .name "ALANG" ∧ b = .name "SA" ∧ kind = .keyword .alangSa := by
  unfold pair? at h
  split at h
  · exact .inl ⟨rfl, rfl, (Option.some.inj h).symm⟩
  · exact .inr (.inl ⟨rfl, rfl, (Option.some.inj h).symm⟩)
  · exact .inr (.inr ⟨rfl, rfl, (Option.some.inj h).symm⟩)
  · cases h

/-- A token of two words is not the first word of another one. -/
theorem pair?_of_pair? {a b kind : TokenKind} (h : pair? a b = some kind) (c : TokenKind) :
    pair? kind c = none := by
  rcases pair?_cases h with ⟨-, -, rfl⟩ | ⟨-, -, rfl⟩ | ⟨-, -, rfl⟩
  · rfl
  · rfl
  · rfl

/-- Lexemes are put together when they are the words of one token and nothing
    but spaces and tabs is between them. -/
theorem fused?_eq_some {first gap second : Lexeme} {kind : TokenKind} :
    fused? first gap second = some kind ↔ ∃ a b, first.kind = some a ∧ gap.kind = none ∧
      second.kind = some b ∧ (∀ c ∈ gap.text, isInline c = true) ∧ pair? a b = some kind := by
  obtain ⟨fk, ft⟩ := first
  obtain ⟨gk, gt⟩ := gap
  obtain ⟨sk, st⟩ := second
  cases fk <;> cases gk <;> cases sk <;> simp [fused?]

theorem fused?_of_none {first gap second : Lexeme} (h : second.kind = none) :
    fused? first gap second = none := by
  refine Option.eq_none_iff_forall_ne_some.2 fun kind hk => ?_
  obtain ⟨_, b, _, _, hb, _⟩ := fused?_eq_some.1 hk
  rw [h] at hb
  cases hb

theorem fuse_cons {l : Lexeme} {ls : List Lexeme}
    (h : ∀ gap second rest, ls = gap :: second :: rest → fused? l gap second = none) :
    fuse (l :: ls) = l :: fuse ls := by
  rcases ls with _ | ⟨gap, _ | ⟨second, rest⟩⟩
  · rfl
  · rfl
  · rw [fuse, h gap second rest rfl]

/-- Blanks and comments belong to no token of two words. -/
theorem fuse_append_of_none {ls : List Lexeme} (h : ∀ l ∈ ls, l.kind = none) (rest : List Lexeme) :
    fuse (ls ++ rest) = ls ++ fuse rest := by
  induction ls with
  | nil => rfl
  | cons l ls ih =>
    rw [List.forall_mem_cons] at h
    rw [List.cons_append, fuse_cons, ih h.2]
    · rfl
    · intro gap second rest _
      simp [fused?, h.1]

/-- The last token of a text stands on its own. -/
theorem fuse_cons_of_none {ls : List Lexeme} (h : ∀ l ∈ ls, l.kind = none) (l : Lexeme) :
    fuse (l :: ls) = l :: ls := by
  have hf := fuse_append_of_none h []
  rw [List.append_nil] at hf
  rw [fuse_cons, hf, fuse, List.append_nil]
  · simp
  · rintro gap second rest rfl
    exact fused?_of_none (h second (by simp))

end Lexeme

end Tudlo
