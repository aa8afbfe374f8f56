import Tudlo.Proofs.Token.Scanning

/-!
# Scanning loses nothing

The tokens of a source text and the gaps between them make up the text. Each
token stands at the position that its first character has, its lexeme is the
very stretch of text that it was read from, and it is spelled as tokens of its
kind are (`Layout`).

Positions are counted from the text before them (`Position.following`), and a
lexeme is a list of characters: there is no line index here, and there are no byte
offsets.

The cut of a text gives pieces of it (`Lexeme.pieces_of_cut`), and putting the
tokens of two words together keeps it so (`Lexeme.Pieces.fuse`).
-/

namespace Tudlo

/-- After the text `before`, the tokens are laid out in the text like this: gaps,
    and between them the lexemes of the tokens, in order, each spelled as tokens
    of its kind are and at its position. The last token marks the end. -/
inductive Layout : (before text : List Char) → List Token → Prop
  | ending {before gap : List Char} : Gap [] gap →
      Layout before gap [⟨.ending, "", .following (before ++ gap)⟩]
  | token {before gap text rest : List Char} {k : TokenKind} {ts : List Token} :
      Gap text gap → Spelling k text → Layout (before ++ gap ++ text) rest ts →
      Layout before (gap ++ (text ++ rest))
        (⟨k, String.ofList text, .following (before ++ gap)⟩ :: ts)

theorem Spelling.text_of_keyword {k : Keyword} {text : List Char} (hk : k.halves = none)
    (h : Spelling (.keyword k) text) : text = k.spelling.toList := by
  cases h with
  | word hw =>
    cases hw with
    | keyword => rfl
  | pair hh =>
    rw [hk] at hh
    cases hh

theorem Spelling.text_of_name {s : String} {text : List Char} (h : Spelling (.name s) text) :
    text = s.toList := by
  cases h with
  | word hw =>
    cases hw with
    | name => rw [String.toList_ofList]

namespace Lexeme

/-! ### Cutting -/

/-- Every lexeme is a piece of the text that the lexemes make up. -/
inductive Pieces : List Lexeme → Prop
  | nil : Pieces []
  | cons {l : Lexeme} {ls : List Lexeme} : Piece (ls.flatMap text) l.kind l.text → Pieces ls →
      Pieces (l :: ls)

/-- What follows a piece matters by its first character only. -/
theorem Piece.mono {rest rest' text : List Char} {kind : Option TokenKind}
    (h : Piece rest kind text) (hr : ∀ c ∈ rest'.head?, c ∈ rest.head?) :
    Piece rest' kind text := by
  cases h with
  | token hs => exact .token hs
  | blanks hne hs => exact .blanks hne hs
  | comment hn hc => exact .comment hn fun c h => hc c (hr c h)

/-- A text is cut into pieces, as far as it can be cut. -/
theorem pieces_of_cut {cs : List Char} {ls : List Lexeme}
    {fault : Option (LexicalCause × List Char)} (h : cut cs = (ls, fault)) : Pieces ls := by
  fun_induction cut cs generalizing ls fault with
  | case1 =>
    obtain rfl := (Prod.mk.inj h).1
    exact .nil
  | case2 =>
    obtain rfl := (Prod.mk.inj h).1
    exact .nil
  | case3 c cs extent hm lexemes fault hc ih =>
    obtain ⟨rfl, rfl⟩ := Prod.mk.inj h
    refine .cons ((piece_of_measure hm).mono fun d hd => ?_) (ih hc)
    -- What follows the first lexeme begins with the text of the others.
    have ht := text_cut (cs.drop extent.more)
    rw [hc] at ht
    rw [← ht, List.head?_append, Option.mem_def.1 hd]
    rfl

/-! ### Putting words together -/

/-- Two tokens that are one together are spelled as its two words. -/
theorem halves_of_pair? {a b kind : TokenKind} (h : pair? a b = some kind) :
    ∃ k first second, kind = .keyword k ∧ k.halves = some (first, second) ∧
      (∀ text, Spelling a text → text = first.toList) ∧
      ∀ text, Spelling b text → text = second.toList := by
  rcases pair?_cases h with ⟨rfl, rfl, rfl⟩ | ⟨rfl, rfl, rfl⟩ | ⟨rfl, rfl, rfl⟩
  · exact ⟨.kungDili, "KUNG", "DILI", rfl, rfl, fun _ => Spelling.text_of_keyword rfl,
      fun _ => Spelling.text_of_keyword rfl⟩
  · exact ⟨.kungWala, "KUNG", "WALA", rfl, rfl, fun _ => Spelling.text_of_keyword rfl,
      fun _ => Spelling.text_of_name⟩
  · exact ⟨.alangSa, "ALANG", "SA", rfl, rfl, fun _ => Spelling.text_of_name,
      fun _ => Spelling.text_of_name⟩

theorem Piece.spelling {rest text : List Char} {k : TokenKind} (h : Piece rest (some k) text) :
    Spelling k text := by
  cases h with
  | token hs => exact hs

theorem Piece.ne_nil {rest text : List Char} {kind : Option TokenKind}
    (h : Piece rest kind text) : text ≠ [] := by
  cases h with
  | token hs => exact hs.ne_nil
  | blanks hne => exact hne
  | comment => exact List.cons_ne_nil _ _

/-- Putting words together keeps the pieces. -/
theorem Pieces.fuse {ls : List Lexeme} (h : Pieces ls) : Pieces (fuse ls) := by
  fun_induction Lexeme.fuse ls with
  | case1 first gap second rest kind hf ih =>
    obtain ⟨a, b, ha, hg, hb, hi, hp⟩ := fused?_eq_some.1 hf
    obtain ⟨k, one, other, rfl, hk, hone, hother⟩ := halves_of_pair? hp
    rcases h with _ | ⟨hfirst, _ | ⟨hgap, _ | ⟨hsecond, h⟩⟩⟩
    rw [ha] at hfirst
    rw [hb] at hsecond
    refine .cons (.token ?_) (ih h)
    rw [hone _ hfirst.spelling, hother _ hsecond.spelling]
    exact .pair hk hgap.ne_nil hi
  | case2 first gap second rest _ ih =>
    rcases h with _ | ⟨hfirst, h⟩
    refine .cons ?_ (ih h)
    rwa [text_fuse]
  | case3 => exact h

end Lexeme

/-! ### Gaps and tokens -/

theorem Gap.blanks {rest text gap : List Char} (h : ∀ c ∈ text, Lexeme.isSpace c = true)
    (hg : Gap rest gap) : Gap rest (text ++ gap) := by
  induction text with
  | nil => exact hg
  | cons c text ih =>
    rw [List.forall_mem_cons] at h
    exact .space h.1 (ih h.2)

/-- Blanks or a comment before a text belong to its first gap. -/
theorem Layout.of_piece {before text rest : List Char} {ts : List Token}
    (hp : Lexeme.Piece rest none text) (h : Layout (before ++ text) rest ts) :
    Layout before (text ++ rest) ts := by
  have hgap : ∀ {gap follow : List Char}, (∀ c ∈ (gap ++ follow).head?, c ∈ rest.head?) →
      Gap follow gap → Gap follow (text ++ gap) := by
    intro gap follow hh hg
    cases hp with
    | blanks _ hs => exact hg.blanks hs
    | comment hn hr => exact .comment hn (fun c hc => hr c (hh c hc)) hg
  cases h with
  | ending hg =>
    rw [List.append_assoc]
    exact .ending (hgap (by simp) hg)
  | token hg hs ht =>
    rw [List.append_assoc, ← List.append_assoc text]
    refine .token (hgap ?_ hg) hs (by simpa using ht)
    have hne := hs.ne_nil
    intro c hc
    rw [← List.append_assoc, List.head?_append_of_ne_nil _ (by simp [hne])]
    exact hc

/-- Pieces of text are laid out as the tokens among them. -/
theorem Lexeme.Pieces.layout {ls : List Lexeme} (h : Pieces ls) (before : List Char) :
    Layout before (ls.flatMap text) (tokens (.following before) ls) := by
  induction h generalizing before with
  | nil =>
    have : Layout before [] [⟨.ending, "", .following (before ++ [])⟩] := .ending .nil
    simpa [tokens] using this
  | @cons l ls hp _ ih =>
    obtain ⟨kind, text⟩ := l
    rw [List.flatMap_cons]
    cases kind with
    | some k =>
      rw [tokens, Position.after_following]
      have := Layout.token .nil hp.spelling (by simpa using ih (before ++ text))
      simpa using this
    | none =>
      rw [tokens, Position.after_following]
      exact .of_piece hp (ih (before ++ text))

/-- The tokens of a source text are those among the pieces that it is cut into. -/
theorem pieces_of_scan {source : String} {tokens : List Token} (h : scan source = .ok tokens) :
    ∃ ls, Lexeme.Pieces ls ∧ ls.flatMap Lexeme.text = source.toList ∧
      tokens = Lexeme.tokens .start ls := by
  obtain ⟨ls, hc, rfl⟩ := cut_of_scan h
  refine ⟨Lexeme.fuse ls, (Lexeme.pieces_of_cut hc).fuse, ?_, rfl⟩
  rw [Lexeme.text_fuse, Lexeme.text_of_cut hc]

/-- A source text that can be cut into tokens is laid out as these tokens: it is
    the gaps and the lexemes, each token is at the position that is counted from
    the text before it, and each lexeme is spelled as tokens of its kind are,
    which for a literal is how its value is written. -/
theorem scan_layout {source : String} {tokens : List Token} (h : scan source = .ok tokens) :
    Layout [] source.toList tokens := by
  obtain ⟨ls, hp, ht, rfl⟩ := pieces_of_scan h
  rw [← ht]
  exact hp.layout []

/-- A text with a token of two words, a comment, a text over two lines, and
    characters that take more than one byte. It ends in a comment. -/
def motley : String :=
  "KUNG \t DILI -- ñ\n\"a\nñ\"1.5 'ñ' [#]\tx\n--"

/-- The tokens of the motley text. -/
def motleyTokens : List Token :=
  [⟨.keyword .kungDili, "KUNG \t DILI", ⟨1, 1⟩⟩, ⟨.literal (.text "a\nñ"), "\"a\nñ\"", ⟨2, 1⟩⟩,
   ⟨.literal (.decimal (.ofQuotient false 3 2)), "1.5", ⟨3, 3⟩⟩,
   ⟨.literal (.character 'ñ'), "'ñ'", ⟨3, 7⟩⟩, ⟨.literal (.bracketed '#'), "[#]", ⟨3, 11⟩⟩,
   ⟨.name "x", "x", ⟨3, 15⟩⟩, ⟨.ending, "", ⟨4, 3⟩⟩]

/-- The motley text has these tokens, and they are laid out in it. -/
theorem scan_layout_motley : scan motley = .ok motleyTokens ∧
    Layout [] motley.toList motleyTokens := by
  have h : scan motley = .ok motleyTokens := by decide +kernel
  exact ⟨h, scan_layout h⟩

end Tudlo
