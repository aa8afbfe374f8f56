import Tudlo.Proofs.Token.Cutting
import Tudlo.Token.Scan

/-!
# Scanning finds the lexemes

The scan goes through a text by byte offsets, and it puts the words of a token
together by rewriting the last token it has found. It comes to the same tokens as
cutting the text into lexemes, putting them together and walking over them
(`scan_of_cut`), and it is refused where the cut stops (`scan_of_cut_fault`).

* `Lexeme.Leads` says what comes next in a text, by the lexemes that it is cut into.
  The cursor finds this (`Cursor.leads_next`);
* `Scanner.Holds` says what a scan has found in the text before the cursor. Its last
  token is *held*: it may still be put together with the next one. Taking one more
  token keeps this (`Scanner.Holds.take`), and so does a whole run
  (`Scanner.Holds.run`).
-/

namespace Tudlo

open String (utf8Len)

/-! ### The next token -/

namespace Lexeme

/-- In the text `cs`, the next token is `l`, after `trivia` and before `rest`. -/
structure IsNext (cs : List Char) (trivia : List Lexeme) (l : Lexeme) (rest : List Char) :
    Prop where
  text_eq : cs = trivia.flatMap text ++ (l.text ++ rest)
  kind_eq_none : ∀ t ∈ trivia, t.kind = none
  not_isSpace : ∀ c ∈ (l.text ++ rest).head?, isSpace c = false
  cut_token : cut (l.text ++ rest) = (l :: (cut rest).1, (cut rest).2)
  cut_eq : cut cs = (trivia ++ l :: (cut rest).1, (cut rest).2)

/-- After the text `before`, this is what comes next in the text `cs`. -/
inductive Leads (before cs : List Char) : Next → Prop
  | ending {trivia : List Lexeme} : (∀ t ∈ trivia, t.kind = none) → cut cs = (trivia, none) →
      Leads before cs .ending
  | fault {trivia : List Lexeme} {cause : LexicalCause} {rest : List Char} :
      cut cs = (trivia, some (cause, rest)) →
      Leads before cs (.fault cause (utf8Len (before ++ trivia.flatMap text)))
  | token {trivia : List Lexeme} {kind : TokenKind} {lexeme rest : List Char} :
      IsNext cs trivia ⟨some kind, lexeme⟩ rest →
      Leads before cs (.token kind
        ⟨utf8Len (before ++ trivia.flatMap text), utf8Len (before ++ trivia.flatMap text ++ lexeme)⟩
        ⟨rest, utf8Len (before ++ trivia.flatMap text ++ lexeme)⟩)

variable {before cs : List Char} {c : Char} {extent : Extent}

theorem isSpace_of_measure {kind : TokenKind} (h : measure c cs = .ok extent)
    (hk : extent.kind = some kind) : isSpace c = false := by
  by_contra hs
  rw [measure, if_pos (by simpa using hs)] at h
  obtain rfl := Except.ok.inj h
  cases hk

/-- A text that starts with a token leads to it. -/
theorem leads_of_token {kind : TokenKind} (h : measure c cs = .ok extent)
    (hk : extent.kind = some kind) : Leads before (c :: cs) (.token kind
      ⟨utf8Len before, utf8Len (before ++ c :: cs.take extent.more)⟩
      ⟨cs.drop extent.more, utf8Len (before ++ c :: cs.take extent.more)⟩) := by
  have hc := cut_of_measure h
  have ht : c :: cs = c :: cs.take extent.more ++ cs.drop extent.more := by simp
  rw [hk] at hc
  have hn : IsNext (c :: cs) [] ⟨some kind, c :: cs.take extent.more⟩ (cs.drop extent.more) := by
    refine ⟨ht, by simp, ?_, ht ▸ hc, hc⟩
    simpa using isSpace_of_measure h hk
  have hl : Leads before (c :: cs) _ := .token hn
  simpa only [List.flatMap_nil, List.append_nil] using hl

/-- Blanks or a comment before a text lead to what it leads to. -/
theorem Leads.cons {next : Next} (h : measure c cs = .ok extent) (hk : extent.kind = none)
    (hl : Leads (before ++ c :: cs.take extent.more) (cs.drop extent.more) next) :
    Leads before (c :: cs) next := by
  have hc := cut_of_measure h
  have hb (ls : List Lexeme) : before ++ c :: cs.take extent.more ++ ls.flatMap text =
      before ++ ((⟨extent.kind, c :: cs.take extent.more⟩ : Lexeme) :: ls).flatMap text := by
    simp
  cases hl with
  | ending hn he =>
    rw [he] at hc
    exact .ending (List.forall_mem_cons.2 ⟨hk, hn⟩) hc
  | fault he =>
    rw [he] at hc
    rw [hb]
    exact .fault hc
  | @token trivia kind lexeme rest hn =>
    rw [hn.cut_eq] at hc
    rw [hb]
    refine .token ⟨?_, List.forall_mem_cons.2 ⟨hk, hn.kind_eq_none⟩, hn.not_isSpace, hn.cut_token,
      hc⟩
    rw [List.flatMap_cons, List.append_assoc, ← hn.text_eq]
    simp

end Lexeme

namespace Cursor

theorem skip_eq (n : Nat) (cs : List Char) (offset : Nat) :
    skip n ⟨cs, offset⟩ = ⟨cs.drop n, offset + utf8Len (cs.take n)⟩ := by
  induction n generalizing cs offset with
  | zero => simp [skip]
  | succ n ih =>
    cases cs with
    | nil => simp [skip]
    | cons c cs => simp [skip, ih, Nat.add_assoc, Nat.add_comm c.utf8Size]

/-- The cursor finds what comes next. -/
theorem leads_next (before cs : List Char) :
    Lexeme.Leads before cs (next ⟨cs, utf8Len before⟩) := by
  -- By the recursion of the cut, which stops at every lexeme, where the cursor goes on
  -- past blanks and comments.
  fun_induction Lexeme.cut cs generalizing before with
  | case1 =>
    rw [next]
    exact .ending (by simp) Lexeme.cut_nil
  | case2 c cs cause h =>
    have hc : Lexeme.cut (c :: cs) = ([], some (cause, c :: cs)) := by rw [Lexeme.cut, h]
    have hl : Lexeme.Leads before (c :: cs) _ := .fault hc
    rw [next, h]
    simpa using hl
  | case3 c cs extent h lexemes fault _ ih =>
    have hs : skip extent.more ⟨cs, utf8Len before + c.utf8Size⟩ =
        ⟨cs.drop extent.more, utf8Len (before ++ c :: cs.take extent.more)⟩ := by
      rw [skip_eq, String.utf8Len_append, String.utf8Len_cons, Nat.add_assoc,
        Nat.add_comm c.utf8Size]
    rw [next, h]
    simp only [hs]
    split
    · rename_i kind hk
      exact Lexeme.leads_of_token h hk
    · rename_i hk
      exact (ih _).cons h hk

theorem leads_of_next {before cs : List Char} {n : Next} (h : next ⟨cs, utf8Len before⟩ = n) :
    Lexeme.Leads before cs n :=
  h ▸ leads_next before cs

end Cursor

/-! ### Tokens of two words -/

namespace Lexeme

variable {cs rest : List Char} {trivia : List Lexeme} {l : Lexeme}

/-- A token with nothing before it follows no blanks and no comments. -/
theorem IsNext.eq_nil (h : IsNext cs trivia l rest) (hg : trivia.flatMap text = []) :
    trivia = [] := by
  have hc := h.cut_eq
  rw [h.text_eq, hg, List.nil_append, h.cut_token] at hc
  exact List.self_eq_append_left.1 (Prod.mk.inj hc).1

theorem isSpace_of_isInline {c : Char} (h : isInline c = true) : isSpace c = true := by
  simp only [isInline, isSpace, Bool.or_eq_true] at h ⊢
  tauto

/-- Spaces and tabs before a token are one lexeme. -/
theorem IsNext.eq_singleton (h : IsNext cs trivia l rest) (hne : trivia.flatMap text ≠ [])
    (hi : ∀ c ∈ trivia.flatMap text, isInline c = true) :
    trivia = [⟨none, trivia.flatMap text⟩] := by
  have hc := h.cut_eq
  rw [h.text_eq, cut_blanks hne (fun c hc => isSpace_of_isInline (hi c hc)) h.not_isSpace,
    h.cut_token] at hc
  exact (List.append_cancel_right (Prod.mk.inj hc).1.symm : trivia = [_])

/-- A token stands on its own when it is not put together with the next one. -/
theorem fuse_of_fused?_eq_none {first : Lexeme} {kind : TokenKind} (hk : l.kind = some kind)
    (hn : ∀ t ∈ trivia, t.kind = none) (h : ∀ g, trivia = [g] → fused? first g l = none)
    (ls : List Lexeme) :
    fuse (first :: (trivia ++ l :: ls)) = first :: (trivia ++ fuse (l :: ls)) := by
  rw [fuse_cons, fuse_append_of_none hn]
  intro gap second rest he
  rcases trivia with _ | ⟨g, _ | ⟨g', trivia⟩⟩
  · obtain ⟨rfl, -⟩ := List.cons.inj he
    refine Option.eq_none_iff_forall_ne_some.2 fun _ hf => ?_
    obtain ⟨_, _, _, hg, _⟩ := fused?_eq_some.1 hf
    rw [hk] at hg
    cases hg
  · obtain ⟨rfl, rfl, -⟩ : g = gap ∧ l = second ∧ ls = rest := by simpa using he
    exact h g rfl
  · obtain ⟨rfl, rfl, -⟩ : g = gap ∧ g' = second ∧ trivia ++ l :: ls = rest := by simpa using he
    exact fused?_of_none (hn g' (by simp))

/-- Two words of one token are as good as the token. -/
theorem fuse_of_pair? {a b kind : TokenKind} {one gap other : List Char}
    (h : pair? a b = some kind) (hi : ∀ c ∈ gap, isInline c = true) (ls : List Lexeme) :
    fuse (⟨some a, one⟩ :: ⟨none, gap⟩ :: ⟨some b, other⟩ :: ls) =
      fuse (⟨some kind, one ++ gap ++ other⟩ :: ls) := by
  have hf : fused? ⟨some a, one⟩ ⟨none, gap⟩ ⟨some b, other⟩ = some kind :=
    fused?_eq_some.2 ⟨a, b, rfl, rfl, rfl, hi, h⟩
  have hone : fuse (⟨some kind, one ++ gap ++ other⟩ :: ls) =
      ⟨some kind, one ++ gap ++ other⟩ :: fuse ls := by
    refine fuse_cons fun _ _ _ _ => Option.eq_none_iff_forall_ne_some.2 fun _ hn => ?_
    obtain ⟨_, c, hk, -, -, -, hp⟩ := fused?_eq_some.1 hn
    rw [← Option.some.inj hk, pair?_of_pair? h c] at hp
    cases hp
  rw [hone, fuse, hf]

theorem tokens_append_of_none (hn : ∀ t ∈ trivia, t.kind = none) (p : Position)
    (ls : List Lexeme) : tokens p (trivia ++ ls) = tokens (p.after (trivia.flatMap text)) ls := by
  induction trivia generalizing p with
  | nil => rfl
  | cons t trivia ih =>
    rw [List.forall_mem_cons] at hn
    rw [List.cons_append, tokens, hn.1, List.flatMap_cons, Position.after_append]
    exact ih hn.2 _

end Lexeme

/-! ### Scans -/

namespace Scanner

/-- After the text `before`, the scan has found the tokens `done`, and then it has come
    to the end of the lexeme that it holds. -/
inductive Holds : Scanner → (done : List Token) → (before : List Char) →
    (held : List Lexeme) → Prop
  | start : Holds ⟨#[], ⟨0, 0⟩⟩ [] [] []
  | last (tokens : Array Token) (before text : List Char) (kind : TokenKind) :
      Holds ⟨tokens.push ⟨kind, String.ofList text, .following before⟩,
          ⟨utf8Len before, utf8Len (before ++ text)⟩⟩
        tokens.toList before [⟨some kind, text⟩]

/-- A scan that has read the lexemes `read` more is about to find the same tokens as
    before. -/
structure Continues (done : List Token) (before : List Char) (held read : List Lexeme)
    (done' : List Token) (before' : List Char) (held' : List Lexeme) : Prop where
  text_eq : before' ++ held'.flatMap Lexeme.text = before ++ (held ++ read).flatMap Lexeme.text
  tokens_eq : ∀ ls, done ++ Lexeme.tokens (.following before) (Lexeme.fuse (held ++ (read ++ ls))) =
    done' ++ Lexeme.tokens (.following before') (Lexeme.fuse (held' ++ ls))

/-- What a scan comes to at that stage, by how the text that follows is cut. -/
def outcome (done : List Token) (before : List Char) (held : List Lexeme) :
    List Lexeme × Option (LexicalCause × List Char) → Except LexicalError (List Token)
  | (ls, none) => .ok (done ++ Lexeme.tokens (.following before) (Lexeme.fuse (held ++ ls)))
  | (ls, some (cause, _)) =>
    .error ⟨cause, .following (before ++ (held ++ ls).flatMap Lexeme.text)⟩

variable {s : Scanner} {done : List Token} {before : List Char} {held : List Lexeme}

theorem Holds.stop_eq (h : Holds s done before held) :
    s.previous.stop = utf8Len (before ++ held.flatMap Lexeme.text) := by
  cases h with
  | start => rfl
  | last => simp

theorem isInlineGap_ofList (gap : List Char) :
    isInlineGap (String.ofList gap) = true ↔ gap ≠ [] ∧ ∀ c ∈ gap, Lexeme.isInline c = true := by
  simp [isInlineGap]

variable {source : String} {cs lexeme rest : List Char} {trivia : List Lexeme} {kind : TokenKind}

/-- What is put together is decided by the gap before the next token. -/
theorem Holds.joined?_eq (h : Holds s done before held)
    (hs : source.toList = before ++ held.flatMap Lexeme.text ++ cs)
    (hn : Lexeme.IsNext cs trivia ⟨some kind, lexeme⟩ rest) (stop : Nat) :
    s.joined? source kind
        ⟨utf8Len (before ++ held.flatMap Lexeme.text ++ trivia.flatMap Lexeme.text), stop⟩ =
      if isInlineGap (String.ofList (trivia.flatMap Lexeme.text)) then
        s.tokens.back?.bind fun last => Lexeme.pair? last.kind kind
      else none := by
  rw [joined?, h.stop_eq, Span.slice_eq (hs.trans (by rw [hn.text_eq, ← List.append_assoc]))]

/-- A token that is not put together with the last one comes after it. -/
theorem Holds.continues_of_none (h : Holds s done before held)
    (hs : source.toList = before ++ held.flatMap Lexeme.text ++ cs)
    (hn : Lexeme.IsNext cs trivia ⟨some kind, lexeme⟩ rest) {stop : Nat}
    (hj : s.joined? source kind
      ⟨utf8Len (before ++ held.flatMap Lexeme.text ++ trivia.flatMap Lexeme.text), stop⟩ = none) :
    Continues done before held (trivia ++ [⟨some kind, lexeme⟩]) s.tokens.toList
      (before ++ held.flatMap Lexeme.text ++ trivia.flatMap Lexeme.text)
      [⟨some kind, lexeme⟩] := by
  refine ⟨by simp, fun ls => ?_⟩
  rw [h.joined?_eq hs hn] at hj
  rw [← Position.after_following, ← Position.after_following,
    List.append_assoc trivia, List.singleton_append]
  cases h with
  | start =>
    rw [List.nil_append, List.nil_append, Lexeme.fuse_append_of_none hn.kind_eq_none,
      Lexeme.tokens_append_of_none hn.kind_eq_none]
    rfl
  | last tokens before text kind' =>
    -- If the words were put together, there would be one lexeme of spaces and tabs
    -- between them, and the scan would have joined them.
    have hf (g : Lexeme) (ht : trivia = [g]) :
        Lexeme.fused? ⟨some kind', text⟩ g ⟨some kind, lexeme⟩ = none := by
      refine Option.eq_none_iff_forall_ne_some.2 fun joined hf => ?_
      obtain ⟨a, b, ha, -, hb, hi, hp⟩ := Lexeme.fused?_eq_some.1 hf
      obtain rfl := Option.some.inj ha
      obtain rfl := Option.some.inj hb
      have hgap : trivia.flatMap Lexeme.text = g.text := by simp [ht]
      have hne : trivia.flatMap Lexeme.text ≠ [] := fun he => by
        rw [hn.eq_nil he] at ht
        cases ht
      rw [if_pos ((isInlineGap_ofList _).2 ⟨hne, hgap ▸ hi⟩), Array.back?_push,
        Option.bind_some, hp] at hj
      cases hj
    rw [List.singleton_append, Lexeme.fuse_of_fused?_eq_none rfl hn.kind_eq_none hf,
      Lexeme.tokens, Lexeme.tokens_append_of_none hn.kind_eq_none]
    simp

theorem modify_push {α : Type} (xs : Array α) (x : α) (f : α → α) :
    (xs.push x).modify ((xs.push x).size - 1) f = xs.push (f x) := by
  apply Array.toList_inj.1
  rw [Array.toList_modify, Array.toList_push, Array.toList_push, Array.size_push,
    Nat.add_sub_cancel, List.modify_eq_take_drop]
  simp

/-- A token that is put together with the one that is held is held with it. -/
theorem continues_of_pair? {text gap : List Char} {a joined : TokenKind}
    (h : Lexeme.pair? a kind = some joined) (hi : ∀ c ∈ gap, Lexeme.isInline c = true) :
    Continues done before [⟨some a, text⟩] ([⟨none, gap⟩] ++ [⟨some kind, lexeme⟩]) done before
      [⟨some joined, text ++ gap ++ lexeme⟩] := by
  refine ⟨by simp, fun ls => ?_⟩
  have hf : Lexeme.fuse (⟨some a, text⟩ :: ⟨none, gap⟩ :: ⟨some kind, lexeme⟩ :: ls) = _ :=
    Lexeme.fuse_of_pair? h hi ls
  simpa using congrArg (done ++ Lexeme.tokens (.following before) ·) hf

/-- There is a token to put together with only when one is held and nothing but spaces and
    tabs follows it. -/
theorem Holds.of_joined? (h : Holds s done before held)
    (hs : source.toList = before ++ held.flatMap Lexeme.text ++ cs)
    (hn : Lexeme.IsNext cs trivia ⟨some kind, lexeme⟩ rest) {stop : Nat} {joined : TokenKind}
    (hj : s.joined? source kind
      ⟨utf8Len (before ++ held.flatMap Lexeme.text ++ trivia.flatMap Lexeme.text), stop⟩ =
        some joined) :
    ∃ (tokens : Array Token) (text gap : List Char) (a : TokenKind),
      s = ⟨tokens.push ⟨a, String.ofList text, .following before⟩,
        ⟨utf8Len before, utf8Len (before ++ text)⟩⟩ ∧
      done = tokens.toList ∧ held = [⟨some a, text⟩] ∧ trivia = [⟨none, gap⟩] ∧
      (∀ c ∈ gap, Lexeme.isInline c = true) ∧ Lexeme.pair? a kind = some joined := by
  rw [h.joined?_eq hs hn] at hj
  split at hj
  · rename_i hi
    obtain ⟨hne, hi⟩ := (isInlineGap_ofList _).1 hi
    cases h with
    | start => cases hj
    | last tokens before text a =>
      rw [Array.back?_push, Option.bind_some] at hj
      exact ⟨tokens, text, _, a, rfl, rfl, rfl, hn.eq_singleton hne hi, hi, hj⟩
  · cases hj

/-- One token more is held, or it is put together with the one that is held. -/
theorem Holds.take (h : Holds s done before held)
    (hs : source.toList = before ++ held.flatMap Lexeme.text ++ cs)
    (hn : Lexeme.IsNext cs trivia ⟨some kind, lexeme⟩ rest) :
    ∃ done' before' held', Continues done before held (trivia ++ [⟨some kind, lexeme⟩])
        done' before' held' ∧
      Holds (s.take source (.ofSource source) kind
        ⟨utf8Len (before ++ held.flatMap Lexeme.text ++ trivia.flatMap Lexeme.text),
         utf8Len (before ++ held.flatMap Lexeme.text ++ trivia.flatMap Lexeme.text ++ lexeme)⟩)
        done' before' held' := by
  have htext : source.toList = before ++ held.flatMap Lexeme.text ++ trivia.flatMap Lexeme.text ++
      lexeme ++ rest := by
    rw [hs, hn.text_eq]
    simp
  rw [Scanner.take]
  split
  · rename_i joined hj
    obtain ⟨tokens, text, gap, a, rfl, rfl, rfl, rfl, hi, hp⟩ := h.of_joined? hs hn hj
    refine ⟨_, _, _, continues_of_pair? hp hi, ?_⟩
    -- The two words and the gap are one stretch of the source.
    have hlast : before ++ [(⟨some a, text⟩ : Lexeme)].flatMap Lexeme.text ++
        [(⟨none, gap⟩ : Lexeme)].flatMap Lexeme.text ++ lexeme =
          before ++ (text ++ gap ++ lexeme) := by
      simp
    rw [hlast] at htext ⊢
    dsimp only
    rw [modify_push, Span.slice_eq htext]
    exact .last tokens before _ joined
  · rename_i hj
    refine ⟨_, _, _, h.continues_of_none hs hn hj, ?_⟩
    rw [Span.slice_eq htext, LineIndex.position_eq (htext.trans (List.append_assoc _ _ _))]
    exact .last s.tokens _ lexeme kind

theorem Continues.outcome_eq {read done' before' held'}
    (h : Continues done before held read done' before' held') (ls : List Lexeme)
    (fault : Option (LexicalCause × List Char)) :
    outcome done before held (read ++ ls, fault) = outcome done' before' held' (ls, fault) := by
  cases fault with
  | none => rw [outcome, outcome, h.tokens_eq]
  | some fault =>
    have ht : before ++ (held ++ (read ++ ls)).flatMap Lexeme.text =
        before' ++ (held' ++ ls).flatMap Lexeme.text := by
      rw [← List.append_assoc, List.flatMap_append, ← List.append_assoc, ← h.text_eq,
        List.flatMap_append, List.append_assoc]
    rw [outcome, outcome, ht]

/-- The tokens of a scan that has come to the end of the text. -/
def finish (source : String) (s : Scanner) : List Token :=
  s.tokens.toList ++ [⟨.ending, "", .following source.toList⟩]

/-- At the end, what is held is a token on its own. -/
theorem Holds.finish_eq (h : Holds s done before held) (hn : ∀ t ∈ trivia, t.kind = none)
    (hs : source.toList = before ++ held.flatMap Lexeme.text ++ trivia.flatMap Lexeme.text) :
    finish source s =
      done ++ Lexeme.tokens (.following before) (Lexeme.fuse (held ++ trivia)) := by
  rw [finish, hs, ← Position.after_following, ← Position.after_following]
  have ht (p : Position) : Lexeme.tokens p trivia =
      [⟨.ending, "", p.after (trivia.flatMap Lexeme.text)⟩] := by
    simpa [Lexeme.tokens] using Lexeme.tokens_append_of_none hn p []
  cases h with
  | start =>
    have hf : Lexeme.fuse trivia = trivia := by
      simpa [Lexeme.fuse] using Lexeme.fuse_append_of_none hn []
    rw [List.nil_append, List.nil_append trivia, hf, ht]
    rfl
  | last tokens before text kind =>
    rw [List.singleton_append, Lexeme.fuse_cons_of_none hn, Lexeme.tokens, ht]
    simp

/-- A run comes to what is said by how the text that follows is cut. -/
theorem Holds.run (h : Holds s done before held)
    (hs : source.toList = before ++ held.flatMap Lexeme.text ++ cs) :
    (Scanner.run source (.ofSource source) s
        ⟨cs, utf8Len (before ++ held.flatMap Lexeme.text)⟩).map (finish source) =
      outcome done before held (Lexeme.cut cs) := by
  -- By the turns of the run. Every turn takes one token, and what it leads to is already
  -- said by the cut of the text before it.
  generalize hcur : (⟨cs, utf8Len (before ++ held.flatMap Lexeme.text)⟩ : Cursor) = cursor
  fun_induction Scanner.run source (.ofSource source) s cursor
    generalizing done before held cs with
  | case1 s cursor hnext =>
    subst hcur
    cases Cursor.leads_of_next hnext with
    | ending hn hc =>
      rw [hc, outcome, ← h.finish_eq hn (by rw [hs, Lexeme.text_of_cut hc])]
      rfl
  | case2 s cursor cause offset hnext =>
    subst hcur
    cases Cursor.leads_of_next hnext with
    | fault hc =>
      rw [← Lexeme.text_of_cut_fault hc, ← List.append_assoc] at hs
      rw [hc, outcome, LineIndex.position_eq hs, List.flatMap_append, List.append_assoc]
      rfl
  | case3 s cursor kind span after hnext ih =>
    subst hcur
    cases Cursor.leads_of_next hnext with
    | @token trivia _ lexeme rest hn =>
      obtain ⟨done', before', held', hc, hh⟩ := h.take hs hn
      have ht : before' ++ held'.flatMap Lexeme.text = before ++ held.flatMap Lexeme.text ++
          trivia.flatMap Lexeme.text ++ lexeme := by
        simpa using hc.text_eq
      have hs' : source.toList = before' ++ held'.flatMap Lexeme.text ++ rest := by
        rw [ht, hs, hn.text_eq]
        simp
      rw [ih hh hs' (by rw [ht]), hn.cut_eq, ← hc.outcome_eq]
      simp

end Scanner

/-! ### The tokens of a text -/

/-- A scan comes to what is said by how the text is cut. -/
theorem Scanner.scan_eq (source : String) :
    scan source = outcome [] [] [] (Lexeme.cut source.toList) := by
  have hsize : source.utf8ByteSize = utf8Len source.toList := by
    rw [← String.utf8ByteSize_ofList, String.ofList_toList]
  have hrun : (run source (.ofSource source) ⟨#[], ⟨0, 0⟩⟩ ⟨source.toList, 0⟩).map
      (finish source) = outcome [] [] [] (Lexeme.cut source.toList) :=
    Holds.start.run rfl
  rw [← hrun, scan, hsize, LineIndex.position_eq (List.append_nil _).symm]
  cases run source (.ofSource source) ⟨#[], ⟨0, 0⟩⟩ ⟨source.toList, 0⟩ with
  | error e => rfl
  | ok s => exact congrArg Except.ok Array.toList_push

variable {source : String} {ls : List Lexeme}

/-- A text that is cut to its end is scanned as the tokens among its lexemes. -/
theorem scan_of_cut (h : Lexeme.cut source.toList = (ls, none)) :
    scan source = .ok (Lexeme.tokens .start (Lexeme.fuse ls)) := by
  rw [Scanner.scan_eq, h]
  rfl

/-- A text is refused where the cut stops. -/
theorem scan_of_cut_fault {cause : LexicalCause} {rest : List Char}
    (h : Lexeme.cut source.toList = (ls, some (cause, rest))) :
    scan source = .error ⟨cause, .following (ls.flatMap Lexeme.text)⟩ := by
  rw [Scanner.scan_eq, h]
  rfl

theorem cut_of_scan {tokens : List Token} (h : scan source = .ok tokens) :
    ∃ ls, Lexeme.cut source.toList = (ls, none) ∧
      tokens = Lexeme.tokens .start (Lexeme.fuse ls) := by
  rcases hc : Lexeme.cut source.toList with ⟨ls, _ | ⟨cause, rest⟩⟩
  · rw [scan_of_cut hc] at h
    exact ⟨ls, rfl, (Except.ok.inj h).symm⟩
  · rw [scan_of_cut_fault hc] at h
    cases h

theorem cut_of_scan_error {e : LexicalError} (h : scan source = .error e) :
    ∃ ls rest, Lexeme.cut source.toList = (ls, some (e.cause, rest)) ∧
      e.pos = .following (ls.flatMap Lexeme.text) := by
  rcases hc : Lexeme.cut source.toList with ⟨ls, _ | ⟨cause, rest⟩⟩
  · rw [scan_of_cut hc] at h
    cases h
  · rw [scan_of_cut_fault hc] at h
    obtain rfl := Except.error.inj h
    exact ⟨ls, rest, rfl, rfl⟩

end Tudlo
