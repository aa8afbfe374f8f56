import Tudlo.Proofs.Grammar.Soundness.Expression

/-!
# What is derived as an expression is read

The other direction: a rule reads every stretch of tokens that the grammar
derives, and gives the tree of the derivation, as long as the token after the
stretch does not go on with it (`Rule.Stops`).

A rule that repeats is different, because a derivation can stop where the rule
goes on: `1 + 2` is derived as a whole and as the beginning of `1 + 2 - 3`. So
what is shown of it first is that after the stretch it has the tree of the
derivation as its left operand, and goes on from there (`Rule.goOn`) with a
budget that is enough for what is left. The token that follows need only not
go on with its operands (`Rule.Pauses`).

* `Rule.Accepts`: the statement that goes through the induction, for every
  rule;
* `Parse.expression_of_derives`, `Parse.operation_of_derives`: what comes out
  of it.
-/

namespace Tudlo

open Parse

/-! ### Ranks -/

/-- How tightly a level binds. Joining texts is less than all of them. -/
def Level.rank : Level → Nat
  | .or => 2
  | .and => 3
  | .equality => 4
  | .comparison => 5
  | .term => 6
  | .factor => 7

/-- How tightly an operator with two operands binds. -/
def BinaryOp.rank (op : BinaryOp) : Nat :=
  match op.level? with
  | some l => l.rank
  | none => 1

/-- No two operators are written with the same token. -/
theorem BinaryOp.token_injective {op op' : BinaryOp} (h : op.token = op'.token) : op = op' := by
  cases op <;> cases op' <;> cases h <;> rfl

theorem BinaryOp.rank_of_level? {op : BinaryOp} {l : Level} (h : op.level? = some l) :
    op.rank = l.rank := by
  rw [rank, h]

/-- No operator of rank `n` or tighter comes next. -/
def Loose (n : Nat) (ts : List Token) : Prop :=
  NextIsNot (fun k => ∃ op : BinaryOp, k = op.token ∧ n ≤ op.rank) ts

theorem Loose.mono {n m : Nat} {ts : List Token} (h : Loose n ts) (hnm : n ≤ m) : Loose m ts :=
  NextIsNot.mono h fun _ ⟨op, hk, hm⟩ => ⟨op, hk, Nat.le_trans hnm hm⟩

/-- After an operator of a lesser rank. -/
theorem loose_cons_of_lt {op : BinaryOp} {n : Nat} {t : Token} {ts : List Token}
    (hk : t.kind = op.token) (hn : op.rank < n) : Loose n (t :: ts) := by
  rw [Loose, nextIsNot_cons]
  rintro ⟨op', hk', hn'⟩
  obtain rfl := BinaryOp.token_injective (hk.symm.trans hk')
  omega

/-- After a token that is no operator. -/
theorem loose_cons_of_ne {n : Nat} {t : Token} {ts : List Token}
    (hk : ∀ op : BinaryOp, t.kind ≠ op.token) : Loose n (t :: ts) := by
  rw [Loose, nextIsNot_cons]
  rintro ⟨op, hop, _⟩
  exact hk op hop

theorem Loose.nextIsNot_operator? {l : Level} {ts : List Token} (h : Loose l.rank ts) :
    NextIsNot (fun k => l.operator? k ≠ none) ts := by
  refine NextIsNot.mono h fun k hk => ?_
  obtain ⟨op, hop⟩ := Option.ne_none_iff_exists'.1 hk
  obtain ⟨hk, hl⟩ := Level.operator?_eq_some.1 hop
  exact ⟨op, hk, Nat.le_of_eq (BinaryOp.rank_of_level? hl).symm⟩

theorem Loose.nextIsNot_joinOperator? {ts : List Token} (h : Loose 1 ts) :
    NextIsNot (fun k => joinOperator? k ≠ none) ts :=
  NextIsNot.mono h fun _ hk => ⟨.join, token_of_joinOperator? hk, Nat.le_refl 1⟩

/-! ### Where a rule stops -/

namespace Rule

/-- The next token does not go on with what the rule derives. -/
def Stops : Rule → List Token → Prop
  | .expression, ts | .assignment, ts => Loose 1 ts ∧ NextIsNot (· = .symbol .assign) ts
  | .operands, ts => Loose 2 ts ∧ NextIsNot (· = .symbol .assign) ts
  | .level l, ts => Loose l.rank ts
  | .unary, _ | .primary, _ => True

/-- The next token does not go on with the operands of what the rule derives,
    if the rule repeats. -/
def Pauses : Rule → List Token → Prop
  | .level l, ts => l.operand.Stops ts
  | r, ts => r.Stops ts

/-- The rule as it is read, with so many rounds left for the expressions
    inside. -/
def parser (rounds : Nat) : Rule → Parse Expr
  | .expression | .operands => chain joinOperator? (Parse.assignment (expressionWithin rounds))
  | .assignment => Parse.assignment (expressionWithin rounds)
  | .level l =>
    operations (Level.all.dropWhile (· != l))
      (Parse.unary (Parse.primary (expressionWithin rounds)))
  | .unary => Parse.unary (Parse.primary (expressionWithin rounds))
  | .primary => Parse.primary (expressionWithin rounds)

/-- What is left to do for the rule after a stretch that it derives. -/
def goOn (rounds budget : Nat) (e : Expr) : Rule → Parse Expr
  | .level l => chainFrom l.operator? (l.operand.parser rounds) budget e
  | .operands => chainFrom joinOperator? (assignment.parser rounds) budget e
  | _ => pure e

theorem parser_level (rounds : Nat) (l : Level) :
    (level l).parser rounds = chain l.operator? (l.operand.parser rounds) := by
  cases l <;> rfl

variable {r : Rule} {ts us rest : List Token} {e d : Expr} {t : Token} {rounds budget : Nat}

theorem Stops.pauses (h : r.Stops rest) : r.Pauses rest := by
  cases r with
  | level l =>
    have hl : Loose l.rank rest := h
    cases l with
    | factor => trivial
    | _ => exact hl.mono (by decide)
  | _ => exact h

/-- Where the rule stops there is nothing left to do. -/
theorem goOn_of_stops (hr : r ≠ .operands) (h : r.Stops rest) :
    r.goOn rounds budget e rest = .ok e rest := by
  cases r with
  | level l =>
    have hl : Loose l.rank rest := h
    exact chainFrom_of_nextIsNot _ _ hl.nextIsNot_operator?
  | operands => exact absurd rfl hr
  | _ => rfl

/-- The rule reads the stretch `ts`, has the tree `e` for it, and goes on from
    there. -/
def Accepts (r : Rule) (ts : List Token) (e : Expr) : Prop :=
  ∀ rounds rest, ts.length ≤ rounds → r.Pauses rest →
    ∃ budget, rest.length ≤ budget ∧
      r.parser rounds (ts ++ rest) = r.goOn rounds budget e rest

theorem Accepts.eq_ok (h : r.Accepts ts e) (hr : r ≠ .operands) (hn : ts.length ≤ rounds)
    (hs : r.Stops rest) : r.parser rounds (ts ++ rest) = .ok e rest := by
  obtain ⟨budget, _, h⟩ := h _ _ hn hs.pauses
  rw [h, goOn_of_stops hr hs]

/-! ### One rule after the other -/

theorem accepts_literal {l : Literal} (hk : t.kind = .literal l) :
    primary.Accepts [t] (.literal l.value t.pos) := by
  intro rounds rest _ _
  exact ⟨rest.length, Nat.le_refl _, primary_of_literal hk⟩

theorem accepts_name {s : String} (hk : t.kind = .name s) :
    primary.Accepts [t] (.var s t.pos) := by
  intro rounds rest _ _
  exact ⟨rest.length, Nat.le_refl _, primary_of_name hk⟩

/-- A token that is neither an operator nor an equals sign goes on with no
    expression. -/
theorem stops_cons (hop : ∀ op : BinaryOp, t.kind ≠ op.token) (ha : t.kind ≠ .symbol .assign) :
    expression.Stops (t :: rest) :=
  ⟨loose_cons_of_ne hop, nextIsNot_cons.2 ha⟩

theorem stops_closeParen {c : Token} (hc : c.kind = .symbol .closeParen) :
    expression.Stops (c :: rest) := by
  refine stops_cons (fun op => ?_) ?_ <;> rw [hc]
  · cases op <;> exact fun h => nomatch h
  · exact fun h => nomatch h

theorem accepts_parentheses {o c : Token} (ho : o.kind = .symbol .openParen)
    (h : expression.Accepts ts e) (hc : c.kind = .symbol .closeParen) :
    primary.Accepts (o :: (ts ++ [c])) e := by
  intro rounds rest hn _
  refine ⟨rest.length, Nat.le_refl _, ?_⟩
  -- The expression inside is shorter, so a round less is enough for it.
  rw [List.length_cons, List.length_append] at hn
  obtain ⟨n, rfl⟩ : ∃ n, rounds = n + 1 := ⟨rounds - 1, by omega⟩
  have hi : expressionWithin (n + 1) (ts ++ c :: rest) = .ok e (c :: rest) :=
    h.eq_ok (by decide) (by omega) (stops_closeParen hc)
  show Parse.primary _ (o :: (ts ++ [c] ++ rest)) = .ok e rest
  rw [primary_of_openParen ho, List.append_assoc, List.singleton_append]
  refine (bind_of_ok hi).trans ?_
  rw [bind_of_ok (expect_of_eq hc)]
  rfl

/-- What a primary expression begins with is no operator. -/
theorem Derives.unaryOperator?_of_primary (h : Rule.primary.Derives ts e) :
    ∃ t us, ts = t :: us ∧ unaryOperator? t.kind = none := by
  cases h with
  | literal hk => exact ⟨_, _, rfl, by rw [hk]; rfl⟩
  | name hk => exact ⟨_, _, rfl, by rw [hk]; rfl⟩
  | parentheses ho _ _ => exact ⟨_, _, rfl, by rw [ho]; rfl⟩

theorem accepts_primary (hd : primary.Derives ts e) (h : primary.Accepts ts e) :
    unary.Accepts ts e := by
  intro rounds rest hn _
  refine ⟨rest.length, Nat.le_refl _, ?_⟩
  have hp : Parse.primary _ (ts ++ rest) = .ok e rest := h.eq_ok (by decide) hn trivial
  obtain ⟨t, us, rfl, ht⟩ := hd.unaryOperator?_of_primary
  show Parse.unary _ (t :: (us ++ rest)) = .ok e rest
  rw [unary_of_nextIsNot (nextIsNot_cons.2 (not_not.2 ht))]
  exact hp

theorem accepts_unary {op : UnaryOp} (hk : t.kind = op.token) (h : unary.Accepts ts e) :
    unary.Accepts (t :: ts) (.unary op e t.pos) := by
  intro rounds rest hn _
  refine ⟨rest.length, Nat.le_refl _, ?_⟩
  have hn' : ts.length ≤ rounds := Nat.le_of_succ_le hn
  have ho : Parse.unary _ (ts ++ rest) = .ok e rest := h.eq_ok (by decide) hn' trivial
  show Parse.unary _ (t :: (ts ++ rest)) = .ok _ rest
  rw [Parse.unary, unaryOperator?_eq_some.2 hk, ho]

/-- The operands of a level are not the operands of `&`. -/
theorem operand_ne_operands (l : Level) : l.operand ≠ .operands := by
  cases l <;> exact fun h => nomatch h

theorem accepts_operand {l : Level} (h : l.operand.Accepts ts e) : (level l).Accepts ts e := by
  intro rounds rest hn hs
  refine ⟨rest.length, Nat.le_refl _, ?_⟩
  rw [parser_level, chain, bind_of_ok (h.eq_ok (operand_ne_operands l) hn hs)]
  rfl

/-- The operator of a level does not go on with the operands of the level. -/
theorem stops_operator {op : BinaryOp} {l : Level} (hl : op.level? = some l)
    (hk : t.kind = op.token) : l.operand.Stops (t :: rest) := by
  have hr := BinaryOp.rank_of_level? hl
  cases l with
  | factor => trivial
  | _ => exact loose_cons_of_lt hk (by rw [hr]; decide)

/-- One step of a chain: an operator and its right operand. -/
theorem chainFrom_step {operator? : TokenKind → Option BinaryOp} {operand : Parse Expr}
    {op : BinaryOp} (hop : operator? t.kind = some op) (hd : operand us = .ok d rest)
    (hb : (t :: us).length ≤ budget) (hu : rest.length ≤ us.length) :
    ∃ budget', rest.length ≤ budget' ∧ chainFrom operator? operand budget e (t :: us) =
      chainFrom operator? operand budget' (.binary op e d t.pos) rest := by
  rw [List.length_cons] at hb
  obtain ⟨b, rfl⟩ : ∃ b, budget = b + 1 := ⟨budget - 1, by omega⟩
  refine ⟨b, by omega, ?_⟩
  rw [chainFrom_of_some hop, bind_of_ok hd]

theorem accepts_operation {op : BinaryOp} {l : Level} (hl : op.level? = some l)
    (h : (level l).Accepts ts e) (hk : t.kind = op.token) (hd : l.operand.Accepts us d) :
    (level l).Accepts (ts ++ t :: us) (.binary op e d t.pos) := by
  intro rounds rest hn hs
  rw [List.length_append, List.length_cons] at hn
  -- The left operand pauses before the operator, and the chain goes on with it.
  obtain ⟨b, hb, hp⟩ := h rounds (t :: (us ++ rest)) (by omega) (stops_operator hl hk)
  have hn' : us.length ≤ rounds := by omega
  have ho := hd.eq_ok (operand_ne_operands l) hn' hs
  obtain ⟨b', hb', hc⟩ := chainFrom_step (Level.operator?_eq_some.2 ⟨hk, hl⟩) ho hb (by simp)
  refine ⟨b', hb', ?_⟩
  rw [List.append_assoc, List.cons_append, hp]
  exact hc

/-- An operation is an assignment when no equals sign follows. -/
theorem assignment_eq_ok (h : (level .or).Accepts ts e) (hn : ts.length ≤ rounds)
    (hs : operands.Stops rest) : assignment.parser rounds (ts ++ rest) = .ok e rest := by
  have ho : operations Level.all _ (ts ++ rest) = .ok e rest := h.eq_ok (by decide) hn hs.1
  show Parse.assignment _ _ = _
  rw [Parse.assignment, bind_of_ok ho, bind_of_ok (accept_of_ne hs.2)]
  rfl

theorem accepts_value (h : (level .or).Accepts ts e) : assignment.Accepts ts e := by
  intro rounds rest hn hs
  refine ⟨rest.length, Nat.le_refl _, ?_⟩
  exact assignment_eq_ok h hn ⟨hs.1.mono (by decide), hs.2⟩

/-- An equals sign is no operator with two operands. -/
theorem loose_assign {n : Nat} (hk : t.kind = .symbol .assign) : Loose n (t :: rest) := by
  refine loose_cons_of_ne fun op => ?_
  rw [hk]
  cases op <;> exact fun h => nomatch h

theorem accepts_assign {s : String} {pos : Position} (h : (level .or).Accepts ts (.var s pos))
    (hk : t.kind = .symbol .assign) (hx : expression.Accepts us e) :
    assignment.Accepts (ts ++ t :: us) (.assign s e pos) := by
  intro rounds rest hn hs
  refine ⟨rest.length, Nat.le_refl _, ?_⟩
  -- What is assigned is a whole expression, and stops where the assignment does.
  rw [List.length_append, List.length_cons] at hn
  obtain ⟨n, rfl⟩ : ∃ n, rounds = n + 1 := ⟨rounds - 1, by omega⟩
  have hn' : ts.length ≤ n + 1 := by omega
  have ho : operations Level.all _ (ts ++ t :: (us ++ rest)) = .ok (.var s pos) _ :=
    h.eq_ok (by decide) hn' (loose_assign hk)
  have hv : expressionWithin (n + 1) (us ++ rest) = .ok e rest :=
    hx.eq_ok (by decide) (by omega) hs
  show Parse.assignment _ _ = _
  rw [List.append_assoc, List.cons_append, Parse.assignment, bind_of_ok ho,
    bind_of_ok (accept_of_eq hk)]
  show (do let value ← expressionWithin (n + 1); return .assign s value pos : Parse Expr) _ = _
  rw [bind_of_ok hv]
  rfl

theorem accepts_first (h : (level .or).Accepts ts e) : operands.Accepts ts e := by
  intro rounds rest hn hs
  refine ⟨rest.length, Nat.le_refl _, ?_⟩
  show chain joinOperator? (assignment.parser rounds) (ts ++ rest) = _
  rw [chain, bind_of_ok (assignment_eq_ok h hn hs)]
  rfl

/-- After operands can come another `&`. -/
theorem stops_join (hk : t.kind = BinaryOp.join.token) : operands.Stops (t :: rest) := by
  refine ⟨loose_cons_of_lt hk (by decide), ?_⟩
  rw [nextIsNot_cons, hk]
  exact fun h => nomatch h

theorem accepts_next (h : operands.Accepts ts e) (hk : t.kind = BinaryOp.join.token)
    (hd : (level .or).Accepts us d) :
    operands.Accepts (ts ++ t :: us) (.binary .join e d t.pos) := by
  intro rounds rest hn hs
  rw [List.length_append, List.length_cons] at hn
  obtain ⟨b, hb, hp⟩ := h rounds (t :: (us ++ rest)) (by omega) (stops_join hk)
  have hn' : us.length ≤ rounds := by omega
  obtain ⟨b', hb', hc⟩ := chainFrom_step (joinOperator?_eq_some.2 ⟨hk, rfl⟩)
    (assignment_eq_ok hd hn' hs) hb (by simp)
  refine ⟨b', hb', ?_⟩
  rw [List.append_assoc, List.cons_append, hp]
  exact hc

theorem accepts_single (h : assignment.Accepts ts e) : expression.Accepts ts e := by
  intro rounds rest hn hs
  refine ⟨rest.length, Nat.le_refl _, ?_⟩
  show chain joinOperator? (assignment.parser rounds) (ts ++ rest) = .ok e rest
  rw [chain, bind_of_ok (h.eq_ok (by decide) hn hs)]
  exact chainFrom_of_nextIsNot _ _ hs.1.nextIsNot_joinOperator?

theorem accepts_last (h : operands.Accepts ts e) (hk : t.kind = BinaryOp.join.token)
    (hd : assignment.Accepts us d) :
    expression.Accepts (ts ++ t :: us) (.binary .join e d t.pos) := by
  intro rounds rest hn hs
  refine ⟨rest.length, Nat.le_refl _, ?_⟩
  rw [List.length_append, List.length_cons] at hn
  obtain ⟨b, hb, hp⟩ := h rounds (t :: (us ++ rest)) (by omega) (stops_join hk)
  have hn' : us.length ≤ rounds := by omega
  obtain ⟨b', _, hc⟩ := chainFrom_step (joinOperator?_eq_some.2 ⟨hk, rfl⟩)
    (hd.eq_ok (by decide) hn' hs) hb (by simp)
  rw [List.append_assoc, List.cons_append]
  exact (hp.trans hc).trans (chainFrom_of_nextIsNot _ _ hs.1.nextIsNot_joinOperator?)

/-- Every rule accepts what it derives. -/
theorem Derives.accepts (h : r.Derives ts e) : r.Accepts ts e := by
  induction h with
  | literal hk => exact accepts_literal hk
  | name hk => exact accepts_name hk
  | parentheses ho _ hc ih => exact accepts_parentheses ho ih hc
  | primary hd ih => exact accepts_primary hd ih
  | unary hk _ ih => exact accepts_unary hk ih
  | operand _ ih => exact accepts_operand ih
  | operation hl _ hk _ ih ihd => exact accepts_operation hl ih hk ihd
  | value _ ih => exact accepts_value ih
  | assign _ hk _ ih ihx => exact accepts_assign ih hk ihx
  | first _ ih => exact accepts_first ih
  | next _ hk _ ih ihd => exact accepts_next ih hk ihd
  | single _ ih => exact accepts_single ih
  | last _ hk _ ih ihd => exact accepts_last ih hk ihd

end Rule

namespace Parse

variable {ts rest : List Token} {e : Expr}

/-- An expression is read as it is derived, when the next token does not go on
    with it. -/
theorem expression_of_derives (h : Rule.expression.Derives ts e)
    (hs : Rule.expression.Stops rest) : expression (ts ++ rest) = .ok e rest :=
  h.accepts.eq_ok (by decide) (by rw [List.length_append]; omega) hs

/-- The operations of a level are read as they are derived, when the next token
    is not an operator of the level or a tighter one. -/
theorem operation_of_derives {l : Level} (h : (Rule.level l).Derives ts e)
    (hs : (Rule.level l).Stops rest) : operation l (ts ++ rest) = .ok e rest := by
  have hn : ts.length ≤ (ts ++ rest).length + 1 := by
    rw [List.length_append]
    omega
  exact h.accepts.eq_ok (by simp) hn hs

end Parse

end Tudlo
