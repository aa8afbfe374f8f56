import Tudlo.Proofs.Grammar.Walls

/-!
# Mistakes are isolated

A check goes on after a mistake with the next keyword that can begin a statement. When
statements without blocks follow one another, this is the beginning of the next one, so
a mistake in one of them neither hides an error in another nor makes one there. Each of
them is checked as if it were alone in a program (`Program.check_isolates`).

That holds for everything that begins like such a statement, whether it is one or not: a
*segment* is a declaring, printing or reading keyword with tokens after it that neither
open a block nor begin or end a statement (`Segment`). The next segment, or the end of
the program, is a wall for the declaration that begins in a segment. What follows the
wall does not change where this declaration ends, if it succeeds, and if it fails, all
that is left of the segment is given up, and no more (`Parse.Opens`). Tokens that are
left after a declaration are read as further ones, until the segment is used up or one
of them fails. So a segment has at most one error, and whether it has one is the same
before all walls (`Parse.Verdict`).
-/

namespace Tudlo

/-- Whether a token can stand in a segment after its keyword: it does not open a block,
    and it neither begins a statement nor ends the statements of a program. -/
def TokenKind.isPlain (k : TokenKind) : Bool :=
  !(k.isFinal || k.beginsStatement || k == .symbol .openBrace)

theorem TokenKind.isPlain_iff {k : TokenKind} : k.isPlain = true ↔
    k.isFinal = false ∧ k.beginsStatement = false ∧ k ≠ .symbol .openBrace := by
  simp [isPlain, and_assoc]

/-- A keyword that declares, prints or reads, with plain tokens after it. One that
    declares may have a type right after it. -/
structure Segment where
  /-- The keyword. -/
  lead : Token
  /-- The type, if there is one. -/
  type : Option Token
  /-- The tokens after that. -/
  others : List Token
  lead_kind : lead.kind = .keyword .mugna ∨ lead.kind = .keyword .ipakita ∨
    lead.kind = .keyword .dawat
  type_kind : ∀ t ∈ type, lead.kind = .keyword .mugna ∧ ∃ s, t.kind = .keyword (.scalar s)
  plain : ∀ t ∈ others, t.kind.isPlain = true

/-- The tokens of a segment. -/
def Segment.tokens (d : Segment) : List Token :=
  d.lead :: (d.type.toList ++ d.others)

namespace Parse

variable {α : Type} {d us vs ts tail rest : List Token} {t : Token} {e : SyntaxError}

/-! ### Declarations before a wall -/

/-- A declaration, before tokens are given up. -/
def attempt (rounds : Nat) : Parse Statement := do
  if (← accept (.keyword .mugna)).isSome then typed else statementOf (declarationWithin rounds)

theorem declaration_eq (ts : List Token) : declaration ts = resuming (attempt ts.length) ts :=
  bind_of_ok (get_eq_ok.2 ⟨rfl, rfl⟩)

section Attempts

variable {rounds : Nat}

theorem attempt_of_mugna (h : t.kind = .keyword .mugna) : attempt rounds (t :: ts) = typed ts := by
  rw [attempt, bind_of_ok (accept_of_eq h)]
  rfl

theorem attempt_of_ne (h : t.kind ≠ .keyword .mugna) :
    attempt rounds (t :: ts) = statementOf (declarationWithin rounds) (t :: ts) := by
  rw [attempt, bind_of_ok (accept_of_ne (nextIsNot_cons.2 h))]
  rfl

theorem attempt_of_ipakita (h : t.kind = .keyword .ipakita) : attempt rounds (t :: ts) =
    (do expect (.symbol .colon) .colonAfterPrint
        return .print (← expression) t.pos : Parse Statement) ts := by
  rw [attempt_of_ne (by simp [h]), statementOf, bind_of_ok (peek_cons t ts), h]
  exact bind_of_ok (skip_cons t ts)

theorem attempt_of_dawat (h : t.kind = .keyword .dawat) : attempt rounds (t :: ts) =
    (do expect (.symbol .colon) .colonAfterRead
        return .read (← (names : Parse (List String))) t.pos : Parse Statement) ts := by
  rw [attempt_of_ne (by simp [h]), statementOf, bind_of_ok (peek_cons t ts), h]
  exact bind_of_ok (skip_cons t ts)

/-- A plain token can only begin a computation. -/
theorem attempt_of_isPlain (h : t.kind.isPlain = true) :
    attempt rounds (t :: ts) = computation (t :: ts) := by
  have hm : t.kind ≠ .keyword .mugna := by
    intro hk
    rw [hk] at h
    cases h
  rw [attempt_of_ne hm, statementOf, bind_of_ok (peek_cons t ts)]
  generalize t.kind = k at h
  split
  case h_8 => rfl
  all_goals cases h

end Attempts

theorem resumes_of_isWall {k : TokenKind} (h : k.isWall = true) :
    (k.isFinal || k.beginsStatement) = true := by
  unfold TokenKind.isWall at h
  split at h
  case h_5 => cases h
  all_goals rfl

/-- After an error, plain tokens are given up, and the wall after them is not. -/
theorem resuming_of_error {rule : Parse α} (h : rule ts = .error e (vs ++ tail))
    (hp : ∀ t ∈ vs, t.kind.isPlain = true) (ht : Walled tail) :
    resuming rule ts = .error e tail := by
  rw [resuming, h]
  dsimp only
  rw [List.dropWhile_append_of_pos]
  · obtain ⟨t, us, rfl, hw⟩ := ht
    rw [List.dropWhile_cons_of_neg (by simp [resumes_of_isWall hw])]
  · intro t ht
    obtain ⟨hf, hb, -⟩ := TokenKind.isPlain_iff.1 (hp t ht)
    rw [hf, hb]
    rfl

/-- What the declaration does that the tokens `d` begin with, before all walls. When it
    succeeds, it leaves the same plain tokens of `d`, and when it fails, none. -/
inductive Opens (d : List Token) : Prop
  | ok {s : Statement} {vs : List Token} (hs : vs <:+ d) (hp : ∀ t ∈ vs, t.kind.isPlain = true)
      (h : ∀ ⦃tail⦄, Walled tail → declaration (d ++ tail) = .ok s (vs ++ tail))
  | error (h : ∀ ⦃tail⦄, Walled tail → ∃ e, declaration (d ++ tail) = .error e tail)

/-- A declaration goes on with a rule that is settled on plain tokens. -/
theorem Opens.of_settled {rule : List Token → Parse Statement} (hs : us <:+ d)
    (hp : ∀ t ∈ us, t.kind.isPlain = true)
    (h : ∀ rounds tail, attempt rounds (d ++ tail) = rule tail (us ++ tail))
    (hr : Settled rule us) : Opens d := by
  rcases hr with @⟨s, vs, hvs, hr⟩ | @⟨vs, hvs, hr⟩
  · refine .ok (s := s) (hvs.trans hs) (fun t ht => hp t (hvs.subset ht)) fun tail ht => ?_
    rw [declaration_eq, resuming_eq_ok, h]
    exact hr ht
  · refine .error fun tail ht => ?_
    obtain ⟨e, he⟩ := hr ht
    refine ⟨e, ?_⟩
    rw [declaration_eq]
    exact resuming_of_error ((h _ tail).trans he) (fun t ht => hp t (hvs.subset ht)) ht

theorem opens_of_isPlain (hp : ∀ u ∈ t :: us, u.kind.isPlain = true) : Opens (t :: us) :=
  .of_settled (List.suffix_refl _) hp
    (fun _ _ => attempt_of_isPlain (hp t List.mem_cons_self)) (settled_computation t us)

/-! ### The errors of a check -/

/-- The errors of the declarations and the conclusion. -/
def errors (ts : List Token) : List SyntaxError :=
  errorsWithin (ts.length + 1) ts

/-- Every budget that is larger than the number of tokens finds all errors. -/
theorem errorsWithin_eq {n k : Nat} (hn : ts.length < n) (hk : ts.length < k) :
    errorsWithin n ts = errorsWithin k ts := by
  induction n generalizing k ts with
  | zero => exact absurd hn (Nat.not_lt_zero _)
  | succ n ih =>
    obtain ⟨k, rfl⟩ : ∃ k', k = k' + 1 := ⟨k - 1, by omega⟩
    rcases ts with _ | ⟨t, ts⟩
    · rfl
    · have hl := declaration_locates (List.suffix_refl (t :: ts))
      rw [errorsWithin, errorsWithin]
      rw [List.length_cons] at hn hk
      split_ifs
      · rfl
      · cases hd : declaration (t :: ts) with
        | ok s rest =>
          have := length_lt_of_declaration hd
          rw [List.length_cons] at this
          exact ih (by omega) (by omega)
        | error e rest =>
          -- What is left after an error is shorter, if need be by a token that is skipped.
          have := (hl.blames hd).1.length_le
          refine congrArg (e :: ·) ?_
          rw [List.length_cons] at this ⊢
          split_ifs
          · exact ih (by rw [List.length_tail]; omega) (by rw [List.length_tail]; omega)
          · exact ih (by omega) (by omega)

theorem errors_of_ok {s : Statement} (hf : t.kind.isFinal = false)
    (h : declaration (t :: ts) = .ok s rest) : errors (t :: ts) = errors rest := by
  have hl := length_lt_of_declaration h
  rw [errors, errorsWithin, if_neg (by simp [hf]), h]
  exact errorsWithin_eq hl (Nat.lt_succ_self _)

theorem errors_of_error (hf : t.kind.isFinal = false) (h : declaration (t :: ts) = .error e rest)
    (hl : rest.length < (t :: ts).length) : errors (t :: ts) = e :: errors rest := by
  rw [errors, errorsWithin, if_neg (by simp [hf]), h]
  dsimp only
  rw [if_neg (Nat.ne_of_lt hl)]
  exact congrArg (e :: ·) (errorsWithin_eq hl (Nat.lt_succ_self _))

/-- Whether the tokens `d` have an error, before all walls. When they have one, it is at
    one of them or at the wall, and it is the only one. -/
inductive Verdict (d : List Token) : Prop
  | clean (h : ∀ ⦃tail⦄, Walled tail → errors (d ++ tail) = errors tail)
  | faulty (h : ∀ ⦃tail⦄, Walled tail →
      ∃ e, (∃ t ∈ d ++ tail.take 1, t.pos = e.pos) ∧ errors (d ++ tail) = e :: errors tail)

/-- A declaration that fails and gives up all tokens before the wall complains at one of
    them, or at the wall. -/
theorem blamed_of_error (ht : Walled tail) (h : declaration (d ++ tail) = .error e tail) :
    ∃ t ∈ d ++ tail.take 1, t.pos = e.pos := by
  obtain ⟨w, ws, rfl, -⟩ := ht
  rcases ((declaration_locates (List.suffix_refl _)).blames h).2 with ⟨hn, -⟩ | ⟨u, us, hu, hw, hp⟩
  · cases hn
  · refine ⟨u, ?_, hp⟩
    -- What is between the blamed token and the wall is nothing, or begins with that token.
    obtain ⟨vs, hvs⟩ := hw
    rcases vs with _ | ⟨v, vs⟩
    · obtain ⟨rfl, -⟩ := List.cons.inj hvs
      simp
    · obtain ⟨rfl, rfl⟩ := List.cons.inj hvs
      obtain ⟨xs, hxs⟩ := hu
      have hd : xs ++ v :: vs = d := List.append_cancel_right (by simpa using hxs)
      exact List.mem_append_left _ (hd ▸ by simp)

theorem Verdict.of_opens (hf : t.kind.isFinal = false) (ho : Opens (t :: us))
    (ih : ∀ vs : List Token, vs.length < (t :: us).length →
      (∀ v ∈ vs, v.kind.isPlain = true) → Verdict vs) : Verdict (t :: us) := by
  rcases ho with @⟨s, vs, hs, hp, h⟩ | h
  · -- Any wall will do to see that less tokens are left than there were.
    have hw : Walled [⟨.keyword .katapusan, "", .nowhere⟩] := ⟨_, _, rfl, rfl⟩
    have hl := length_lt_of_declaration (h hw)
    rw [List.length_append, List.length_append] at hl
    rcases ih vs (Nat.lt_of_add_lt_add_right hl) hp with hv | hv
    · exact .clean fun tail ht => (errors_of_ok hf (h ht)).trans (hv ht)
    · refine .faulty fun tail ht => ?_
      obtain ⟨e, ⟨u, hu, hpos⟩, he⟩ := hv ht
      refine ⟨e, ⟨u, ?_, hpos⟩, (errors_of_ok hf (h ht)).trans he⟩
      rcases List.mem_append.1 hu with hu | hu
      · exact List.mem_append_left _ (hs.subset hu)
      · exact List.mem_append_right _ hu
  · refine .faulty fun tail ht => ?_
    obtain ⟨e, he⟩ := h ht
    refine ⟨e, blamed_of_error ht he, errors_of_error hf he ?_⟩
    exact Nat.lt_succ_of_le (List.suffix_append us tail).length_le

/-- Plain tokens are read as declarations until one of them fails. -/
theorem verdict_of_isPlain (hp : ∀ u ∈ us, u.kind.isPlain = true) : Verdict us := by
  induction hl : us.length using Nat.strongRecOn generalizing us with
  | _ l ih =>
    rcases us with _ | ⟨t, us⟩
    · exact .clean fun _ _ => rfl
    · have hf := (TokenKind.isPlain_iff.1 (hp t List.mem_cons_self)).1
      exact .of_opens hf (opens_of_isPlain hp) fun vs hv hvp => ih vs.length (hl ▸ hv) hvp rfl

end Parse

namespace Segment

open Parse

/-- The declaration that a segment begins with. -/
theorem opens (d : Segment) : Opens d.tokens := by
  obtain ⟨t, type, us, hl, ht, hp⟩ := d
  rcases type with _ | u
  · have hs : us <:+ t :: us := List.suffix_cons t us
    rcases hl with hk | hk | hk
    · exact .of_settled hs hp (fun _ _ => attempt_of_mugna hk) (settled_typed us)
    · refine .of_settled hs hp (fun _ _ => attempt_of_ipakita hk) ?_
      refine .bind (settled_expect rfl _ us) fun _ vs _ => ?_
      exact .bind (settled_expression vs) fun _ _ _ => settled_pure _
    · refine .of_settled hs hp (fun _ _ => attempt_of_dawat hk) ?_
      refine .bind (settled_expect rfl _ us) fun _ vs _ => ?_
      exact .bind (settled_names vs) fun _ _ _ => settled_pure _
  · obtain ⟨hk, type, hu⟩ := ht u rfl
    refine .of_settled (List.suffix_append [t, u] us) hp (fun _ _ => ?_)
      (settled_declaredAs type u.pos us)
    exact (attempt_of_mugna hk).trans (typed_of_scalar hu)

theorem isWall_lead (d : Segment) : d.lead.kind.isWall = true := by
  rcases d.lead_kind with h | h | h <;> rw [h] <;> rfl

theorem isFinal_lead (d : Segment) : d.lead.kind.isFinal = false := by
  rcases d.lead_kind with h | h | h <;> rw [h] <;> rfl

theorem verdict (d : Segment) : Verdict d.tokens :=
  .of_opens d.isFinal_lead d.opens fun _ _ hp => verdict_of_isPlain hp

/-- The first token of the segments, or `last` when there are none. -/
def next (last : Token) : List Segment → Token
  | [] => last
  | d :: _ => d.lead

end Segment

/-! ### Programs of segments -/

/-- The tokens around the statements of a program. -/
structure Markers where
  /-- The keyword that begins the program. -/
  first : Token
  /-- The keyword that ends the program. -/
  last : Token
  /-- The end of the text. -/
  ending : Token
  first_kind : first.kind = .keyword .sugod
  last_kind : last.kind = .keyword .katapusan
  ending_kind : ending.kind = .ending

namespace Markers

variable (m : Markers)

/-- The tokens of a program, with those of its statements given. -/
def around (ts : List Token) : List Token :=
  m.first :: (ts ++ [m.last, m.ending])

theorem check_around (ts : List Token) :
    Program.check (m.around ts) = Parse.errors (ts ++ [m.last, m.ending]) := by
  have hb : Parse.beginning (m.around ts) = .ok () (ts ++ [m.last, m.ending]) := by
    rw [Parse.beginning, around, Parse.bind_of_ok (Parse.peek_cons _ _), if_pos m.first_kind]
    exact Parse.skip_cons _ _
  rw [Program.check, hb, Parse.errors]

theorem errors_last : Parse.errors [m.last, m.ending] = [] := by
  have hc : Parse.conclusion [m.last, m.ending] = .ok () [m.ending] := by
    rw [Parse.conclusion, Parse.bind_of_ok (Parse.peek_cons _ _), if_pos m.last_kind,
      Parse.bind_of_ok (Parse.skip_cons _ _), Parse.bind_of_ok (Parse.peek_cons _ _),
      if_pos m.ending_kind]
    rfl
  rw [Parse.errors, Parse.errorsWithin, if_pos (by rw [m.last_kind]; rfl), hc]

theorem walled_last : Parse.Walled [m.last, m.ending] :=
  ⟨_, _, rfl, by rw [m.last_kind]; rfl⟩

/-- A segment, or the end of the program, is a wall. -/
theorem walled (ds : List Segment) :
    Parse.Walled (ds.flatMap Segment.tokens ++ [m.last, m.ending]) := by
  rcases ds with _ | ⟨d, ds⟩
  · exact m.walled_last
  · exact ⟨d.lead, _, rfl, d.isWall_lead⟩

theorem take_one (ds : List Segment) :
    (ds.flatMap Segment.tokens ++ [m.last, m.ending]).take 1 = [Segment.next m.last ds] := by
  rcases ds with _ | ⟨d, ds⟩ <;> rfl

end Markers

/-- The errors are one for each of the segments that is faulty, in the order of the
    segments. Each is placed at a token of its segment or at the first one after it. -/
inductive Reported (faulty : Segment → Prop) (last : Token) :
    List Segment → List SyntaxError → Prop
  | nil : Reported faulty last [] []
  | clean {d : Segment} {ds : List Segment} {es : List SyntaxError} (hd : ¬faulty d)
      (h : Reported faulty last ds es) : Reported faulty last (d :: ds) es
  | faulty {d : Segment} {ds : List Segment} {e : SyntaxError} {es : List SyntaxError}
      (hd : faulty d) (ht : ∃ t ∈ d.tokens ++ [Segment.next last ds], t.pos = e.pos)
      (h : Reported faulty last ds es) : Reported faulty last (d :: ds) (e :: es)

/-- Mistakes are isolated. In a program that is made of segments, the check finds one
    error for each segment that has errors when it is alone in a program, and none for
    the others. The errors come in the order of the segments, and each is placed at a
    token of its segment or at the first one after it. -/
theorem Program.check_isolates (m alone : Markers) (ds : List Segment) :
    Reported (fun d => Program.check (alone.around d.tokens) ≠ []) m.last ds
      (Program.check (m.around (ds.flatMap Segment.tokens))) := by
  rw [m.check_around]
  induction ds with
  | nil =>
    rw [List.flatMap_nil, List.nil_append, m.errors_last]
    exact .nil
  | cons d ds ih =>
    rw [List.flatMap_cons, List.append_assoc]
    rcases d.verdict with h | h
    · have hd : Program.check (alone.around d.tokens) = [] := by
        rw [alone.check_around, h alone.walled_last, alone.errors_last]
      rw [h (m.walled ds)]
      exact .clean (not_not.2 hd) ih
    · have hd : Program.check (alone.around d.tokens) ≠ [] := by
        obtain ⟨e, -, he⟩ := h alone.walled_last
        rw [alone.check_around, he]
        exact List.cons_ne_nil _ _
      obtain ⟨e, ht, he⟩ := h (m.walled ds)
      rw [m.take_one] at ht
      rw [he]
      exact .faulty hd ht ih

-- Of three segments the second one lacks a colon, and the third one stops too early.
example : (scan "SUGOD MUGNA NUMERO x = 1 IPAKITA x ) DAWAT: x, KATAPUSAN").toOption.map
    (fun ts => (Program.check ts).map Diagnostic.pos) = some [⟨1, 34⟩, ⟨1, 48⟩] := by
  decide +kernel

end Tudlo
