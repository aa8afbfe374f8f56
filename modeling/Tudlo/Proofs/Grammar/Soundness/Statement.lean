import Mathlib.Data.List.Forall2
import Tudlo.Grammar.Program
import Tudlo.Proofs.Grammar.Soundness.Expression

/-!
# What is read as a program is derived

A statement that is read is derived from the tokens that were consumed for it,
with the very positions that the tree has. The rules follow one another as in
the grammar: what a rule takes as a parameter is known to read what it should
(`Parse.Reads`), and then the rule does. The knot is tied by induction on the
rounds, which never matter: a rule that runs out of them fails.

* `Parse.declaration_reads`: a declaration, whatever it contains;
* `Parse.bodyWithin_reads`: one stretch of tokens for every statement of a
  program, in order;
* `Program.derives_of_parse`: a whole program.

The clauses of a loop are read in two ways, and `Parse.loop_of_bare` and
`Parse.loop_of_parentheses` say what is left to do in each.
-/

namespace Tudlo

namespace Parse

/-! ### Statements -/

theorem names_reads : Reads names NamesDerive := by
  intro ts ss rest h
  fun_induction names ts generalizing ss rest with
  | case1 => exact nomatch h
  | case2 t s comma others hk hc ss' left hr ih =>
    obtain ⟨us, rfl, hd⟩ := ih hr
    obtain ⟨rfl, rfl⟩ := EStateM.Result.ok.inj h
    exact ⟨t :: comma :: us, rfl, .more hk hc hd⟩
  | case3 => exact nomatch h
  | case4 t s comma others hk hc =>
    obtain ⟨rfl, rfl⟩ := EStateM.Result.ok.inj h
    exact ⟨[t], rfl, .last hk⟩
  | case5 t s hk =>
    obtain ⟨rfl, rfl⟩ := EStateM.Result.ok.inj h
    exact ⟨[t], rfl, .last hk⟩
  | case6 => exact nomatch h

/-- What follows the type in a declaration. -/
def declaredAs (type : ScalarType) (pos : Position) : Parse Statement := do
  let declared ← names
  if (← accept (.symbol .assign)).isSome then
    return .declare type declared (some (← expression)) pos
  else return .declare type declared none pos

theorem typed_of_scalar {t : Token} {ts : List Token} {type : ScalarType}
    (h : t.kind = .keyword (.scalar type)) : typed (t :: ts) = declaredAs type t.pos ts := by
  rw [typed, bind_of_ok (peek_cons t ts), h]
  exact bind_of_ok (skip_cons t ts)

theorem typed_of_ne {t : Token} {ts : List Token} (h : ∀ type, t.kind ≠ .keyword (.scalar type)) :
    typed (t :: ts) = .error ⟨.typeExpected t.describe, t.pos⟩ (t :: ts) := by
  rw [typed, bind_of_ok (peek_cons t ts)]
  generalize t.kind = k at h
  split
  · exact absurd rfl (h _)
  · rfl

theorem typed_reads : Reads typed TypedDerives := by
  intro ts s rest h
  rw [typed, bind_eq_ok] at h
  obtain ⟨t, _, hp, h⟩ := h
  obtain ⟨us, rfl, rfl⟩ := peek_eq_ok hp
  generalize hk : t.kind = k at h
  split at h
  · rename_i type
    rw [bind_of_ok (skip_cons t us)] at h
    replace h := bind_eq_ok.1 h
    obtain ⟨declared, mid, hn, h⟩ := h
    obtain ⟨vs, rfl, hns⟩ := names_reads hn
    rw [bind_eq_ok] at h
    obtain ⟨r, mid', ha, h⟩ := h
    rcases accept_eq_ok ha with ⟨q, rfl, hq, rfl⟩ | ⟨rfl, rfl, _⟩
    · rw [Option.isSome_some, if_pos rfl, bind_eq_ok] at h
      obtain ⟨e, mid, he, h⟩ := h
      obtain ⟨ws, rfl, hd⟩ := expression_reads he
      obtain ⟨rfl, rfl⟩ := pure_eq_ok.1 h
      exact ⟨t :: (vs ++ q :: ws), by simp, .initialised hk hns hq hd⟩
    · obtain ⟨rfl, rfl⟩ := pure_eq_ok.1 h
      exact ⟨t :: vs, rfl, .bare hk hns⟩
  · exact absurd h throw_ne_ok

/-- An expression as a statement is known by the first token of its stretch. -/
theorem computation_reads : Reads computation fun us s =>
    ∃ t vs e, us = t :: vs ∧ s = .compute e t.pos ∧ Rule.expression.Derives us e := by
  intro ts s rest h
  rw [computation, bind_eq_ok] at h
  obtain ⟨t, _, hp, h⟩ := h
  obtain ⟨us, rfl, rfl⟩ := peek_eq_ok hp
  rw [bind_eq_ok] at h
  obtain ⟨e, mid, he, h⟩ := h
  obtain ⟨vs, hv, hd⟩ := expression_reads he
  obtain ⟨rfl, rfl⟩ := pure_eq_ok.1 h
  cases vs with
  | nil => exact absurd rfl hd.ne_nil
  | cons v vs =>
    rw [List.cons_append, List.cons.injEq] at hv
    obtain ⟨rfl, rfl⟩ := hv
    exact ⟨t :: vs, rfl, t, vs, e, rfl, rfl, hd⟩

theorem clause_reads : Reads clause ClauseDerives := by
  intro ts s rest h
  rw [clause, bind_eq_ok] at h
  obtain ⟨r, mid, ha, h⟩ := h
  rcases accept_eq_ok ha with ⟨t, rfl, hk, rfl⟩ | ⟨rfl, rfl, _⟩
  · obtain ⟨us, rfl, hd⟩ := typed_reads h
    exact ⟨t :: us, rfl, .declared hk hd⟩
  · obtain ⟨_, rfl, t, vs, e, rfl, rfl, hd⟩ := computation_reads h
    exact ⟨t :: vs, rfl, .computed hd⟩

/-- The three clauses of a loop, with commas between them. -/
def clauses : Parse (Statement × Expr × Statement) := do
  let initial ← clause
  expect (.symbol .comma) .commaAfterInitial
  let condition ← expression
  expect (.symbol .comma) .commaAfterCondition
  let step ← clause
  return (initial, condition, step)

/-- A loop whose clauses are not in parentheses. -/
theorem loop_of_bare {block : Parse Block} {pos : Position}
    (h : clausesInParentheses ts = false) :
    loop block pos ts = (do
      let (initial, condition, step) ← clauses
      let body ← block
      return Statement.loop initial condition step body pos : Parse Statement) ts := by
  rw [loop, bind_of_ok (get_eq_ok.2 ⟨rfl, rfl⟩)]
  simp only [h, clauses, bind_assoc, pure_bind]
  rfl

/-- A loop whose clauses are in parentheses. -/
theorem loop_of_parentheses {block : Parse Block} {pos : Position}
    (h : clausesInParentheses ts = true) :
    loop block pos ts = (do
      skip
      let (initial, condition, step) ← clauses
      expect (.symbol .closeParen) .closeClauses
      let body ← block
      return Statement.loop initial condition step body pos : Parse Statement) ts := by
  rw [loop, bind_of_ok (get_eq_ok.2 ⟨rfl, rfl⟩)]
  simp only [h, clauses, bind_assoc, pure_bind]
  rfl

theorem clauses_reads : Reads clauses fun us c => ClausesDerive us c.1 c.2.1 c.2.2 := by
  intro ts c rest h
  rw [clauses, bind_eq_ok] at h
  obtain ⟨initial, _, hi, h⟩ := h
  obtain ⟨us, rfl, hdi⟩ := clause_reads hi
  rw [bind_eq_ok] at h
  obtain ⟨_, _, hc, h⟩ := h
  obtain ⟨c, rfl, hk⟩ := expect_eq_ok hc
  rw [bind_eq_ok] at h
  obtain ⟨condition, _, he, h⟩ := h
  obtain ⟨vs, rfl, hde⟩ := expression_reads he
  rw [bind_eq_ok] at h
  obtain ⟨_, _, hc', h⟩ := h
  obtain ⟨c', rfl, hk'⟩ := expect_eq_ok hc'
  rw [bind_eq_ok] at h
  obtain ⟨step, _, hs, h⟩ := h
  obtain ⟨ws, rfl, hds⟩ := clause_reads hs
  obtain ⟨rfl, rfl⟩ := pure_eq_ok.1 h
  exact ⟨us ++ c :: (vs ++ c' :: ws), by simp, .mk hdi hk hde hk' hds⟩

/-! ### Blocks, and the statements that have them -/

variable {declaration : Parse Statement} {block : Parse Block}

/-- The declarations of a block end with the brace that closes it. -/
theorem declarationsWithin_reads
    (hd : Reads declaration fun us s => Phrase.Derives (.declaration s) us) (budget : Nat) :
    Reads (declarationsWithin declaration budget) fun us ss =>
      ∃ vs c, us = vs ++ [c] ∧ c.kind = .symbol .closeBrace ∧
        Phrase.Derives (.declarations ss) vs := by
  induction budget with
  | zero => exact fun _ _ _ h => absurd h throw_ne_ok
  | succ budget ih =>
    intro ts ss rest h
    rw [declarationsWithin, bind_eq_ok] at h
    obtain ⟨t, _, hp, h⟩ := h
    obtain ⟨us, rfl, rfl⟩ := peek_eq_ok hp
    split_ifs at h with hc hf
    · rw [bind_of_ok (skip_cons t us)] at h
      obtain ⟨rfl, rfl⟩ := pure_eq_ok.1 h
      exact ⟨[t], rfl, [], t, rfl, hc, .done⟩
    · exact absurd h throw_ne_ok
    · rw [bind_eq_ok] at h
      obtain ⟨first, mid, hs, h⟩ := h
      obtain ⟨vs, hv, hds⟩ := hd hs
      rw [bind_eq_ok] at h
      obtain ⟨others, mid', ho, h⟩ := h
      obtain ⟨_, rfl, ws, c, rfl, hk, hdo⟩ := ih ho
      obtain ⟨rfl, rfl⟩ := pure_eq_ok.1 h
      exact ⟨vs ++ (ws ++ [c]), by simp [hv], vs ++ ws, c, by simp, hk, .more hds hdo⟩

theorem blockOf_reads (hd : Reads declaration fun us s => Phrase.Derives (.declaration s) us) :
    Reads (blockOf declaration) fun us b => Phrase.Derives (.block b) us := by
  intro ts b rest h
  rw [blockOf, bind_eq_ok] at h
  obtain ⟨t, _, hp, h⟩ := h
  obtain ⟨us, rfl, rfl⟩ := peek_eq_ok hp
  rw [bind_eq_ok] at h
  obtain ⟨r, mid, ha, h⟩ := h
  rw [bind_eq_ok] at h
  obtain ⟨_, mid', hb, h⟩ := h
  obtain ⟨o, rfl, hk⟩ := expect_eq_ok hb
  rw [bind_of_ok (get_eq_ok.2 ⟨rfl, rfl⟩), bind_eq_ok] at h
  obtain ⟨ss, mid, hs, h⟩ := h
  obtain ⟨_, rfl, vs, c, rfl, hc, hds⟩ := declarationsWithin_reads hd _ hs
  obtain ⟨rfl, rfl⟩ := pure_eq_ok.1 h
  -- The opening brace is the first token, or the one after the keyword.
  rcases accept_eq_ok ha with ⟨p, hp, hpk, _⟩ | ⟨_, hp, _⟩
  · obtain ⟨rfl, rfl⟩ := List.cons.inj hp
    exact ⟨t :: o :: (vs ++ [c]), by simp, .marked hpk hk hds hc⟩
  · obtain ⟨rfl, rfl⟩ := List.cons.inj hp
    exact ⟨o :: (vs ++ [c]), by simp, .braces hk hds hc⟩

theorem choiceWithin_reads (hb : Reads block fun us b => Phrase.Derives (.block b) us)
    (rounds : Nat) (pos : Position) :
    Reads (choiceWithin block rounds pos) fun us s => Phrase.Derives (.choice s pos) us := by
  induction rounds generalizing pos with
  | zero => exact fun _ _ _ h => absurd h throw_ne_ok
  | succ rounds ih =>
    intro ts s rest h
    rw [choiceWithin, bind_eq_ok] at h
    obtain ⟨condition, _, he, h⟩ := h
    obtain ⟨us, rfl, hde⟩ := expression_reads he
    rw [bind_eq_ok] at h
    obtain ⟨whenTrue, _, ht, h⟩ := h
    obtain ⟨vs, rfl, hdt⟩ := hb ht
    rw [bind_eq_ok] at h
    obtain ⟨next, _, hp, h⟩ := h
    obtain ⟨ws, rfl, rfl⟩ := peek_eq_ok hp
    generalize hk : next.kind = k at h
    split at h
    · rw [bind_of_ok (skip_cons next ws), bind_eq_ok] at h
      obtain ⟨other, _, ho, h⟩ := h
      obtain ⟨xs, rfl, hdo⟩ := ih _ ho
      obtain ⟨rfl, rfl⟩ := pure_eq_ok.1 h
      exact ⟨us ++ (vs ++ next :: xs), by simp, .again hde hdt hk hdo⟩
    · rw [bind_of_ok (skip_cons next ws), bind_eq_ok] at h
      obtain ⟨whenFalse, _, hf, h⟩ := h
      obtain ⟨xs, rfl, hdf⟩ := hb hf
      obtain ⟨rfl, rfl⟩ := pure_eq_ok.1 h
      exact ⟨us ++ (vs ++ next :: xs), by simp, .otherwise hde hdt hk hdf⟩
    · obtain ⟨rfl, rfl⟩ := pure_eq_ok.1 h
      exact ⟨us ++ vs, by simp, .only hde hdt⟩

/-- Clauses in parentheses begin with the opening one. -/
theorem cons_of_clausesInParentheses (h : clausesInParentheses ts = true) :
    ∃ o us, ts = o :: us ∧ o.kind = .symbol .openParen := by
  cases ts with
  | nil => exact nomatch h
  | cons o us =>
    rw [clausesInParentheses, Bool.and_eq_true, beq_iff_eq] at h
    exact ⟨o, us, rfl, h.1⟩

/-- A loop, which is known by the token before it. -/
theorem loop_reads (hb : Reads block fun us b => Phrase.Derives (.block b) us) {t : Token}
    (hk : t.kind = .keyword .alangSa) :
    Reads (loop block t.pos) fun us s => Phrase.Derives (.statement s) (t :: us) := by
  intro ts s rest h
  cases hp : clausesInParentheses ts with
  | false =>
    rw [loop_of_bare hp, bind_eq_ok] at h
    obtain ⟨⟨initial, condition, step⟩, _, hc, h⟩ := h
    obtain ⟨us, rfl, hdc⟩ := clauses_reads hc
    rw [bind_eq_ok] at h
    obtain ⟨body, _, hbody, h⟩ := h
    obtain ⟨vs, rfl, hdb⟩ := hb hbody
    obtain ⟨rfl, rfl⟩ := pure_eq_ok.1 h
    exact ⟨us ++ vs, by simp, .loop hk hdc hdb⟩
  | true =>
    rw [loop_of_parentheses hp] at h
    obtain ⟨o, ts, rfl, ho⟩ := cons_of_clausesInParentheses hp
    rw [bind_of_ok (skip_cons o ts), bind_eq_ok] at h
    obtain ⟨⟨initial, condition, step⟩, _, hc, h⟩ := h
    obtain ⟨us, rfl, hdc⟩ := clauses_reads hc
    rw [bind_eq_ok] at h
    obtain ⟨_, _, he, h⟩ := h
    obtain ⟨p, rfl, hpk⟩ := expect_eq_ok he
    rw [bind_eq_ok] at h
    obtain ⟨body, _, hbody, h⟩ := h
    obtain ⟨vs, rfl, hdb⟩ := hb hbody
    obtain ⟨rfl, rfl⟩ := pure_eq_ok.1 h
    exact ⟨o :: (us ++ p :: vs), by simp, .loopInParentheses hk ho hdc hpk hdb⟩

theorem statementOf_reads
    (hd : Reads declaration fun us s => Phrase.Derives (.declaration s) us) :
    Reads (statementOf declaration) fun us s => Phrase.Derives (.statement s) us := by
  intro ts s rest h
  rw [statementOf, bind_eq_ok] at h
  obtain ⟨t, _, hp, h⟩ := h
  obtain ⟨us, rfl, rfl⟩ := peek_eq_ok hp
  generalize hk : t.kind = k at h
  split at h
  · rw [bind_of_ok (skip_cons t us), bind_eq_ok] at h
    obtain ⟨_, _, hc, h⟩ := h
    obtain ⟨c, rfl, hck⟩ := expect_eq_ok hc
    rw [bind_eq_ok] at h
    obtain ⟨e, _, he, h⟩ := h
    obtain ⟨vs, rfl, hde⟩ := expression_reads he
    obtain ⟨rfl, rfl⟩ := pure_eq_ok.1 h
    exact ⟨t :: c :: vs, rfl, .print hk hck hde⟩
  · rw [bind_of_ok (skip_cons t us), bind_eq_ok] at h
    obtain ⟨_, _, hc, h⟩ := h
    obtain ⟨c, rfl, hck⟩ := expect_eq_ok hc
    replace h := bind_eq_ok.1 h
    obtain ⟨names, _, hn, h⟩ := h
    obtain ⟨vs, rfl, hdn⟩ := names_reads hn
    obtain ⟨rfl, rfl⟩ := pure_eq_ok.1 h
    exact ⟨t :: c :: vs, rfl, .read hk hck hdn⟩
  · rw [bind_of_ok (skip_cons t us), bind_of_ok (get_eq_ok.2 ⟨rfl, rfl⟩)] at h
    obtain ⟨vs, rfl, hdc⟩ := choiceWithin_reads (blockOf_reads hd) _ _ h
    exact ⟨t :: vs, rfl, .choose hk hdc⟩
  · rw [bind_of_ok (skip_cons t us)] at h
    obtain ⟨vs, rfl, hdl⟩ := loop_reads (blockOf_reads hd) hk h
    exact ⟨t :: vs, rfl, hdl⟩
  · rw [bind_eq_ok] at h
    obtain ⟨b, _, hb, h⟩ := h
    obtain ⟨vs, hv, hdb⟩ := blockOf_reads hd hb
    obtain ⟨rfl, rfl⟩ := pure_eq_ok.1 h
    exact ⟨vs, hv, .nested hdb⟩
  · rw [bind_eq_ok] at h
    obtain ⟨b, _, hb, h⟩ := h
    obtain ⟨vs, hv, hdb⟩ := blockOf_reads hd hb
    obtain ⟨rfl, rfl⟩ := pure_eq_ok.1 h
    exact ⟨vs, hv, .nested hdb⟩
  · obtain ⟨vs, hv, hdt⟩ := typed_reads h
    exact ⟨vs, hv, .typed hdt⟩
  · obtain ⟨_, hv, t, vs, e, rfl, rfl, hde⟩ := computation_reads h
    exact ⟨t :: vs, hv, .compute hde⟩

/-- Resuming only matters to a rule that fails. -/
theorem resuming_eq_ok {α : Type} {rule : Parse α} {a : α} :
    resuming rule ts = .ok a rest ↔ rule ts = .ok a rest := by
  rw [resuming]
  cases rule ts with
  | ok b left => rfl
  | error e left => exact ⟨(fun h => nomatch h), (fun h => nomatch h)⟩

theorem declarationWithin_reads (rounds : Nat) :
    Reads (declarationWithin rounds) fun us s => Phrase.Derives (.declaration s) us := by
  induction rounds with
  | zero => exact fun _ _ _ h => absurd h throw_ne_ok
  | succ rounds ih =>
    intro ts s rest h
    rw [declarationWithin, resuming_eq_ok, bind_eq_ok] at h
    obtain ⟨r, mid, ha, h⟩ := h
    rcases accept_eq_ok ha with ⟨t, rfl, hk, rfl⟩ | ⟨rfl, rfl, _⟩
    · obtain ⟨us, rfl, hdt⟩ := typed_reads h
      exact ⟨t :: us, rfl, .announced hk hdt⟩
    · obtain ⟨us, hu, hds⟩ := statementOf_reads ih h
      exact ⟨us, hu, .plain hds⟩

theorem declaration_reads :
    Reads Parse.declaration fun us s => Phrase.Derives (.declaration s) us :=
  fun ts _ _ h => declarationWithin_reads (ts.length + 1) h

/-! ### Programs -/

/-- Every statement of the body has a stretch of its own, one after the
    other. -/
theorem bodyWithin_reads (budget : Nat) : Reads (bodyWithin budget) fun us program =>
    ∃ parts : List (List Token), us = parts.flatten ∧
      List.Forall₂ (fun s part => Phrase.Derives (.declaration s) part) program parts := by
  induction budget with
  | zero => exact fun _ _ _ h => absurd h throw_ne_ok
  | succ budget ih =>
    intro ts program rest h
    rw [bodyWithin, bind_eq_ok] at h
    obtain ⟨t, _, hp, h⟩ := h
    obtain ⟨us, rfl, rfl⟩ := peek_eq_ok hp
    split_ifs at h with hf
    · obtain ⟨rfl, rfl⟩ := pure_eq_ok.1 h
      exact ⟨[], rfl, [], rfl, .nil⟩
    · rw [bind_eq_ok] at h
      obtain ⟨first, mid, hs, h⟩ := h
      obtain ⟨vs, hv, hds⟩ := declaration_reads hs
      rw [bind_eq_ok] at h
      obtain ⟨others, mid', ho, h⟩ := h
      obtain ⟨_, rfl, parts, rfl, hdo⟩ := ih ho
      obtain ⟨rfl, rfl⟩ := pure_eq_ok.1 h
      exact ⟨vs ++ parts.flatten, by simp [hv], vs :: parts, by simp, .cons hds hdo⟩

theorem beginning_eq_ok {u : Unit} (h : beginning ts = .ok u rest) :
    ∃ t, ts = t :: rest ∧ t.kind = .keyword .sugod := by
  rw [beginning, bind_eq_ok] at h
  obtain ⟨t, _, hp, h⟩ := h
  obtain ⟨us, rfl, rfl⟩ := peek_eq_ok hp
  split_ifs at h with hk
  · exact ⟨t, by rw [skip_eq_ok h], hk⟩
  · exact absurd h throw_ne_ok

theorem conclusion_eq_ok {u : Unit} (h : conclusion ts = .ok u rest) :
    ∃ t next after, ts = t :: next :: after ∧ t.kind = .keyword .katapusan ∧
      next.kind = .ending := by
  rw [conclusion, bind_eq_ok] at h
  obtain ⟨t, _, hp, h⟩ := h
  obtain ⟨us, rfl, rfl⟩ := peek_eq_ok hp
  split_ifs at h with hk
  · rw [bind_of_ok (skip_cons t us), bind_eq_ok] at h
    obtain ⟨next, _, hp, h⟩ := h
    obtain ⟨after, rfl, rfl⟩ := peek_eq_ok hp
    split_ifs at h with hn
    · exact ⟨t, next, after, rfl, hk, hn⟩
    · exact absurd h throw_ne_ok
  · exact absurd h throw_ne_ok

end Parse

/-- A program that is read is derived: its tokens are the keyword that begins
    it, one stretch for each of its statements, which is a derivation of that
    very statement with all its positions, and the keyword that ends it before
    the end of the text. What comes after that end is not looked at. -/
theorem Program.derives_of_parse {tokens : List Token} {program : Program}
    (h : Program.parse tokens = .ok program) :
    ∃ (start close finish : Token) (parts : List (List Token)) (after : List Token),
      tokens = start :: (parts.flatten ++ close :: finish :: after) ∧
      start.kind = .keyword .sugod ∧ close.kind = .keyword .katapusan ∧
      finish.kind = .ending ∧
      List.Forall₂ (fun s part => Phrase.Derives (.declaration s) part) program parts := by
  rw [Program.parse] at h
  split at h
  · rename_i statements rest hp
    obtain rfl := Except.ok.inj h
    rw [Parse.program, Parse.bind_eq_ok] at hp
    obtain ⟨_, _, hb, hp⟩ := hp
    obtain ⟨start, rfl, hstart⟩ := Parse.beginning_eq_ok hb
    rw [Parse.bind_of_ok (Parse.get_eq_ok.2 ⟨rfl, rfl⟩), Parse.bind_eq_ok] at hp
    obtain ⟨body, _, hbody, hp⟩ := hp
    obtain ⟨_, rfl, parts, rfl, hparts⟩ := Parse.bodyWithin_reads _ hbody
    rw [Parse.bind_eq_ok] at hp
    obtain ⟨_, _, hc, hp⟩ := hp
    obtain ⟨close, finish, after, rfl, hclose, hfinish⟩ := Parse.conclusion_eq_ok hc
    obtain ⟨rfl, rfl⟩ := Parse.pure_eq_ok.1 hp
    exact ⟨start, close, finish, parts, after, rfl, hstart, hclose, hfinish, hparts⟩
  · exact nomatch h

/-! ### A program that counts -/

/-- Tokens of the given kinds, each in a column of its own. -/
def inColumns (kinds : List TokenKind) : List Token :=
  kinds.zipIdx.map fun (k, n) => ⟨k, "", ⟨1, n + 1⟩⟩

/-- The tokens of a program that counts, and then asks for two conditions. -/
def countingTokens : List Token := inColumns
  [.keyword .sugod, .keyword .alangSa, .symbol .openParen, .keyword .mugna,
   .keyword (.scalar .integer), .name "i", .symbol .assign, .literal (.integer 0),
   .symbol .comma, .name "i", .symbol .less, .literal (.integer 3), .symbol .comma,
   .symbol .openParen, .name "i", .symbol .assign, .name "i", .symbol .plus,
   .literal (.integer 1), .symbol .closeParen, .symbol .closeParen, .symbol .openBrace,
   .keyword .ipakita, .symbol .colon, .name "i", .symbol .ampersand, .literal (.text "!"),
   .symbol .closeBrace, .keyword .kung, .name "x", .symbol .assign, .name "y",
   .symbol .ampersand, .name "z", .symbol .openBrace, .symbol .closeBrace, .keyword .kungDili,
   .keyword .dili, .name "z", .keyword .pundok, .symbol .openBrace, .symbol .closeBrace,
   .keyword .katapusan, .ending]

/-- The program that `countingTokens` are. -/
def counting : Program :=
  [.loop (.declare .integer ["i"] (some (.literal (.integer 0) ⟨1, 8⟩)) ⟨1, 5⟩)
     (.binary .less (.var "i" ⟨1, 10⟩) (.literal (.integer 3) ⟨1, 12⟩) ⟨1, 11⟩)
     (.compute (.assign "i"
       (.binary .add (.var "i" ⟨1, 17⟩) (.literal (.integer 1) ⟨1, 19⟩) ⟨1, 18⟩) ⟨1, 15⟩) ⟨1, 14⟩)
     ⟨[.print (.binary .join (.var "i" ⟨1, 25⟩) (.literal (.text "!") ⟨1, 27⟩) ⟨1, 26⟩) ⟨1, 23⟩],
       ⟨1, 22⟩⟩ ⟨1, 2⟩,
   .choose (.assign "x" (.binary .join (.var "y" ⟨1, 32⟩) (.var "z" ⟨1, 34⟩) ⟨1, 33⟩) ⟨1, 30⟩)
     ⟨[], ⟨1, 35⟩⟩
     (some ⟨[.choose (.unary .not (.var "z" ⟨1, 39⟩) ⟨1, 38⟩) ⟨[], ⟨1, 40⟩⟩ none ⟨1, 37⟩],
       ⟨1, 37⟩⟩) ⟨1, 29⟩]

/-- The counting program is read, also when something follows the end of the
    text, and thus derived. -/
theorem Program.derives_of_parse_counting :
    Program.parse (countingTokens ++ countingTokens) = .ok counting ∧
    ∃ (start close finish : Token) (parts : List (List Token)) (after : List Token),
      countingTokens ++ countingTokens = start :: (parts.flatten ++ close :: finish :: after) ∧
      start.kind = .keyword .sugod ∧ close.kind = .keyword .katapusan ∧
      finish.kind = .ending ∧
      List.Forall₂ (fun s part => Phrase.Derives (.declaration s) part) counting parts := by
  have h : Program.parse (countingTokens ++ countingTokens) = .ok counting := by rfl
  exact ⟨h, Program.derives_of_parse h⟩

end Tudlo
