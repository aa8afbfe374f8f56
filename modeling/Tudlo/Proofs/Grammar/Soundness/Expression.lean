import Tudlo.Proofs.Grammar.Derivation
import Tudlo.Proofs.Grammar.Steps

/-!
# What is read as an expression is derived

A rule for expressions that succeeds has consumed a stretch of tokens that the
grammar derives, with the tree that the rule gives. So no token is dropped or
used twice, and every position in the tree is that of the token that the
grammar says.

The rules take one another as parameters, and the statements about them do the
same: `primary_reads` holds of a rule `primary expression` as soon as
`expression` reads expressions. The knot is tied by induction on the rounds
(`expressionWithin_reads`).

There is one thing more to know, and it goes through the same induction: a
whole expression is never followed by `&`, as the budget of a chain is enough
for all tokens (`nextIsNot_of_chainFrom`). It is why an assignment among the
operands of `&` is always the last of them.
-/

namespace Tudlo

/-! ### Operators and their tokens -/

/-- The operators of a level are recognised by the tokens they are written
    with. -/
theorem Level.operator?_eq_some {l : Level} {k : TokenKind} {op : BinaryOp} :
    l.operator? k = some op ↔ k = op.token ∧ op.level? = some l := by
  constructor
  · intro h
    unfold Level.operator? at h
    split at h <;> cases h <;> exact ⟨rfl, rfl⟩
  · rintro ⟨rfl, h⟩
    cases op <;> cases h <;> rfl

theorem unaryOperator?_eq_some {k : TokenKind} {op : UnaryOp} :
    unaryOperator? k = some op ↔ k = op.token := by
  constructor
  · intro h
    unfold unaryOperator? at h
    split at h <;> cases h <;> rfl
  · rintro rfl
    cases op <;> rfl

theorem joinOperator?_eq_some {k : TokenKind} {op : BinaryOp} :
    joinOperator? k = some op ↔ k = BinaryOp.join.token ∧ op = .join := by
  constructor
  · intro h
    unfold joinOperator? at h
    split at h <;> cases h
    exact ⟨rfl, rfl⟩
  · rintro ⟨rfl, rfl⟩
    rfl

/-- Nothing else is recognised as the operator that joins texts. -/
theorem token_of_joinOperator? {k : TokenKind} (h : joinOperator? k ≠ none) :
    k = BinaryOp.join.token := by
  obtain ⟨op, hop⟩ := Option.ne_none_iff_exists'.1 h
  exact (joinOperator?_eq_some.1 hop).1

namespace Parse

variable {ts rest : List Token} {e : Expr}

/-! ### Chains -/

/-- A chain ends where no operator follows. -/
theorem chainFrom_of_nextIsNot {operator? : TokenKind → Option BinaryOp} {operand : Parse Expr}
    (budget : Nat) (left : Expr) (h : NextIsNot (fun k => operator? k ≠ none) ts) :
    chainFrom operator? operand budget left ts = .ok left ts := by
  cases budget with
  | zero => rfl
  | succ budget =>
    rw [chainFrom, bind_of_ok (takeIf_of_none h)]
    rfl

/-- A chain goes on after an operator, with one less of its budget. -/
theorem chainFrom_of_some {operator? : TokenKind → Option BinaryOp} {operand : Parse Expr}
    {t : Token} {op : BinaryOp} {budget : Nat} {left : Expr} (h : operator? t.kind = some op) :
    chainFrom operator? operand (budget + 1) left (t :: ts) =
      (do let right ← operand
          chainFrom operator? operand budget (.binary op left right t.pos)) ts := by
  rw [chainFrom, bind_of_ok (takeIf_of_some h)]

/-- With a budget for all tokens, a chain ends only where no operator
    follows. -/
theorem nextIsNot_of_chainFrom {operator? : TokenKind → Option BinaryOp} {operand : Parse Expr}
    {O : List Token → Expr → Prop} (ho : Reads operand O) {budget : Nat} {left : Expr}
    (hb : ts.length ≤ budget) (h : chainFrom operator? operand budget left ts = .ok e rest) :
    NextIsNot (fun k => operator? k ≠ none) rest := by
  induction budget generalizing left ts with
  | zero =>
    obtain rfl := List.eq_nil_of_length_eq_zero (Nat.le_zero.1 hb)
    rw [chainFrom, pure_eq_ok] at h
    rw [h.2]
    exact nextIsNot_nil _
  | succ budget ih =>
    rw [chainFrom, bind_eq_ok] at h
    obtain ⟨r, mid, ht, h⟩ := h
    rcases takeIf_eq_ok ht with ⟨t, op, rfl, _, rfl⟩ | ⟨rfl, rfl, hn⟩
    · rw [bind_eq_ok] at h
      obtain ⟨right, mid', hr, h⟩ := h
      have := ho.length_le hr
      exact ih (by rw [List.length_cons] at hb; omega) h
    · rw [pure_eq_ok] at h
      rwa [h.2]

/-- A chain goes on from a stretch `us` that `D` holds of to longer and longer
    ones that `D` holds of. -/
theorem chainFrom_reads {operator? : TokenKind → Option BinaryOp} {operand : Parse Expr}
    {O D : List Token → Expr → Prop} (ho : Reads operand O)
    (hD : ∀ {us left t op vs right}, D us left → operator? t.kind = some op → O vs right →
      D (us ++ t :: vs) (.binary op left right t.pos))
    (budget : Nat) {us : List Token} {left : Expr} (hl : D us left) :
    Reads (chainFrom operator? operand budget left) fun vs e => D (us ++ vs) e := by
  induction budget generalizing us left with
  | zero =>
    intro ts e rest h
    rw [chainFrom, pure_eq_ok] at h
    obtain ⟨rfl, rfl⟩ := h
    exact ⟨[], rfl, by simpa using hl⟩
  | succ budget ih =>
    intro ts e rest h
    rw [chainFrom, bind_eq_ok] at h
    obtain ⟨r, mid, ht, h⟩ := h
    rcases takeIf_eq_ok ht with ⟨t, op, rfl, hop, rfl⟩ | ⟨rfl, rfl, _⟩
    · rw [bind_eq_ok] at h
      obtain ⟨right, mid', hr, h⟩ := h
      obtain ⟨vs, rfl, hO⟩ := ho hr
      obtain ⟨ws, rfl, hw⟩ := ih (hD hl hop hO) h
      exact ⟨t :: (vs ++ ws), by simp, by simpa using hw⟩
    · rw [pure_eq_ok] at h
      obtain ⟨rfl, rfl⟩ := h
      exact ⟨[], rfl, by simpa using hl⟩

/-- A chain is its first operand and what goes on from there. -/
theorem chain_eq_ok {operator? : TokenKind → Option BinaryOp} {operand : Parse Expr} :
    chain operator? operand ts = .ok e rest ↔ ∃ left mid, operand ts = .ok left mid ∧
      chainFrom operator? operand mid.length left mid = .ok e rest := by
  rw [chain, bind_eq_ok]
  rfl

/-- A level reads its operations, when what is inside reads its operands. -/
theorem level_reads {l : Level} {operand : Parse Expr} (ho : Reads operand l.operand.Derives) :
    Reads (chain l.operator? operand) (Rule.level l).Derives := by
  intro ts e rest h
  rw [chain_eq_ok] at h
  obtain ⟨left, mid, hl, h⟩ := h
  obtain ⟨us, rfl, hd⟩ := ho hl
  obtain ⟨vs, rfl, hv⟩ := chainFrom_reads (D := (Rule.level l).Derives) ho
    (fun hl hop hr => by
      obtain ⟨hk, hop⟩ := Level.operator?_eq_some.1 hop
      exact .operation hop hl hk hr) _ (.operand hd) h
  exact ⟨us ++ vs, (List.append_assoc ..).symm, hv⟩

/-- All levels together read operations, from the loosest on. -/
theorem operations_reads {operand : Parse Expr} (ho : Reads operand Rule.unary.Derives) :
    Reads (operations Level.all operand) (Rule.level .or).Derives :=
  level_reads (l := .or) (level_reads (l := .and) (level_reads (l := .equality)
    (level_reads (l := .comparison) (level_reads (l := .term) (level_reads (l := .factor) ho)))))

/-! ### Expressions -/

theorem unary_of_nextIsNot {primary : Parse Expr}
    (h : NextIsNot (fun k => unaryOperator? k ≠ none) ts) : unary primary ts = primary ts := by
  cases ts with
  | nil => rfl
  | cons t ts =>
    rw [nextIsNot_cons, not_not] at h
    rw [unary, h]

theorem unary_of_some {primary : Parse Expr} {t : Token} {op : UnaryOp}
    (h : unaryOperator? t.kind = some op) : unary primary (t :: ts) =
      (do return .unary op (← (unary primary : Parse Expr)) t.pos : Parse Expr) ts := by
  rw [unary, h]
  cases hu : unary primary ts with
  | ok operand rest =>
    rw [bind_of_ok hu]
    rfl
  | error e rest => rw [bind_of_error hu]

theorem unary_reads {primary : Parse Expr} (hp : Reads primary Rule.primary.Derives) :
    Reads (unary primary) Rule.unary.Derives := by
  intro ts
  induction ts with
  | nil =>
    intro e rest h
    obtain ⟨us, hu, hd⟩ := hp h
    exact ⟨us, hu, .primary hd⟩
  | cons t ts ih =>
    intro e rest h
    rw [unary] at h
    split at h
    · rename_i op hop
      split at h
      · rename_i operand left ho
        obtain ⟨us, rfl, hd⟩ := ih ho
        obtain ⟨rfl, rfl⟩ := EStateM.Result.ok.inj h
        exact ⟨t :: us, rfl, .unary (unaryOperator?_eq_some.1 hop) hd⟩
      · exact nomatch h
    · obtain ⟨us, hu, hd⟩ := hp h
      exact ⟨us, hu, .primary hd⟩

theorem primary_of_literal {expression : Parse Expr} {t : Token} {l : Literal}
    (h : t.kind = .literal l) :
    primary expression (t :: ts) = .ok (.literal l.value t.pos) ts := by
  rw [primary, bind_of_ok (peek_cons t ts), h]
  rfl

theorem primary_of_name {expression : Parse Expr} {t : Token} {s : String} (h : t.kind = .name s) :
    primary expression (t :: ts) = .ok (.var s t.pos) ts := by
  rw [primary, bind_of_ok (peek_cons t ts), h]
  rfl

theorem primary_of_openParen {expression : Parse Expr} {t : Token}
    (h : t.kind = .symbol .openParen) : primary expression (t :: ts) =
      (do let inner ← expression
          expect (.symbol .closeParen) .closeExpression
          return inner) ts := by
  rw [primary, bind_of_ok (peek_cons t ts), h]
  exact bind_of_ok (skip_cons t ts)

theorem primary_of_ne {expression : Parse Expr} {t : Token} (hl : ∀ l, t.kind ≠ .literal l)
    (hn : ∀ s, t.kind ≠ .name s) (hp : t.kind ≠ .symbol .openParen) :
    primary expression (t :: ts) =
      .error ⟨.expressionExpected t.describe, t.pos⟩ (t :: ts) := by
  rw [primary, bind_of_ok (peek_cons t ts)]
  generalize t.kind = k at hl hn hp
  split
  · exact absurd rfl (hl _)
  · exact absurd rfl (hn _)
  · exact absurd rfl hp
  · rfl

theorem primary_reads {expression : Parse Expr} (hx : Reads expression Rule.expression.Derives) :
    Reads (primary expression) Rule.primary.Derives := by
  intro ts e rest h
  rw [primary, bind_eq_ok] at h
  obtain ⟨t, _, hp, h⟩ := h
  obtain ⟨us, rfl, rfl⟩ := peek_eq_ok hp
  generalize hk : t.kind = k at h
  split at h
  · rename_i l
    rw [bind_of_ok (skip_cons t us)] at h
    obtain ⟨rfl, rfl⟩ := pure_eq_ok.1 h
    exact ⟨[t], rfl, .literal hk⟩
  · rename_i s
    rw [bind_of_ok (skip_cons t us)] at h
    obtain ⟨rfl, rfl⟩ := pure_eq_ok.1 h
    exact ⟨[t], rfl, .name hk⟩
  · rw [bind_of_ok (skip_cons t us), bind_eq_ok] at h
    obtain ⟨inner, _, hi, h⟩ := h
    obtain ⟨vs, rfl, hd⟩ := hx hi
    rw [bind_eq_ok] at h
    obtain ⟨_, _, hc, h⟩ := h
    obtain ⟨c, rfl, hck⟩ := expect_eq_ok hc
    obtain ⟨rfl, rfl⟩ := pure_eq_ok.1 h
    exact ⟨t :: (vs ++ [c]), by simp, .parentheses hk hd hck⟩
  · exact absurd h throw_ne_ok

/-- The rule reads one of the assignments with `&` between them: an operation,
    or an assignment with an equals sign of its own, and then no `&` follows. -/
def ReadsJoined (rule : Parse Expr) : Prop :=
  ∀ ⦃ts e rest⦄, rule ts = .ok e rest → ∃ us, ts = us ++ rest ∧
    ((Rule.level .or).Derives us e ∨
      Rule.assignment.Derives us e ∧ NextIsNot (· = BinaryOp.join.token) rest)

theorem assignment_readsJoined {expression : Parse Expr}
    (hx : Reads expression Rule.expression.Derives)
    (hn : ∀ {ts e rest}, expression ts = .ok e rest → NextIsNot (· = BinaryOp.join.token) rest) :
    ReadsJoined (assignment expression) := by
  intro ts e rest h
  rw [assignment, bind_eq_ok] at h
  obtain ⟨target, mid, ht, h⟩ := h
  obtain ⟨us, rfl, hd⟩ := operations_reads (unary_reads (primary_reads hx)) ht
  rw [bind_eq_ok] at h
  obtain ⟨r, mid', ha, h⟩ := h
  rcases accept_eq_ok ha with ⟨t, rfl, hk, rfl⟩ | ⟨rfl, rfl, _⟩
  · rw [bind_eq_ok] at h
    obtain ⟨value, _, hv, h⟩ := h
    obtain ⟨vs, rfl, hdv⟩ := hx hv
    -- Whether the left side is a variable is asked only after the value is read.
    split at h
    · obtain ⟨rfl, rfl⟩ := pure_eq_ok.1 h
      exact ⟨us ++ t :: vs, by simp, .inr ⟨.assign hd hk hdv, hn hv⟩⟩
    · exact absurd h throw_ne_ok
  · obtain ⟨rfl, rfl⟩ := pure_eq_ok.1 h
    exact ⟨us, rfl, .inl hd⟩

/-- After operands, the rest of an expression. Once an operand has an equals
    sign, it was the last one. -/
theorem joins_reads {operand : Parse Expr} (ho : ReadsJoined operand)
    (budget : Nat) {us : List Token} {left : Expr} (hl : Rule.operands.Derives us left) :
    Reads (chainFrom joinOperator? operand budget left)
      fun vs e => Rule.expression.Derives (us ++ vs) e := by
  induction budget generalizing us left with
  | zero =>
    intro ts e rest h
    obtain ⟨rfl, rfl⟩ := pure_eq_ok.1 h
    exact ⟨[], rfl, by simpa using hl.expression_of_operands⟩
  | succ budget ih =>
    intro ts e rest h
    rw [chainFrom, bind_eq_ok] at h
    obtain ⟨r, mid, ht, h⟩ := h
    rcases takeIf_eq_ok ht with ⟨t, op, rfl, hop, rfl⟩ | ⟨rfl, rfl, _⟩
    · obtain ⟨hk, rfl⟩ := joinOperator?_eq_some.1 hop
      rw [bind_eq_ok] at h
      obtain ⟨right, mid', hr, h⟩ := h
      -- Only an operand without an equals sign can be followed by another one.
      obtain ⟨vs, rfl, hd | ⟨hd, hn⟩⟩ := ho hr
      · obtain ⟨ws, rfl, hw⟩ := ih (.next hl hk hd) h
        exact ⟨t :: (vs ++ ws), by simp, by simpa using hw⟩
      · rw [chainFrom_of_nextIsNot _ _ (hn.mono fun _ => token_of_joinOperator?)] at h
        obtain ⟨rfl, rfl⟩ := EStateM.Result.ok.inj h
        exact ⟨t :: vs, by simp, .last hl hk hd⟩
    · obtain ⟨rfl, rfl⟩ := pure_eq_ok.1 h
      exact ⟨[], rfl, by simpa using hl.expression_of_operands⟩

/-- An expression is read, and no `&` follows it. -/
theorem expressionWithin_reads (rounds : Nat) :
    Reads (expressionWithin rounds) Rule.expression.Derives ∧ ∀ {ts e rest},
      expressionWithin rounds ts = .ok e rest → NextIsNot (· = BinaryOp.join.token) rest := by
  induction rounds with
  | zero => exact ⟨fun _ _ _ h => absurd h throw_ne_ok, fun h => absurd h throw_ne_ok⟩
  | succ rounds ih =>
    have ho := assignment_readsJoined ih.1 ih.2
    refine ⟨fun ts e rest h => ?_, fun {ts e rest} h => ?_⟩
    · rw [expressionWithin, chain_eq_ok] at h
      obtain ⟨left, mid, hl, h⟩ := h
      obtain ⟨us, rfl, hd | ⟨hd, hn⟩⟩ := ho hl
      · obtain ⟨vs, rfl, hv⟩ := joins_reads ho _ (.first hd) h
        exact ⟨us ++ vs, (List.append_assoc ..).symm, hv⟩
      · rw [chainFrom_of_nextIsNot _ _ (hn.mono fun _ => token_of_joinOperator?)] at h
        obtain ⟨rfl, rfl⟩ := EStateM.Result.ok.inj h
        exact ⟨us, rfl, .single hd⟩
    · rw [expressionWithin, chain_eq_ok] at h
      obtain ⟨left, mid, _, h⟩ := h
      have hr : Reads (assignment (expressionWithin rounds)) fun _ _ => True := by
        intro ts e rest h
        obtain ⟨us, hu, _⟩ := ho h
        exact ⟨us, hu, trivial⟩
      exact (nextIsNot_of_chainFrom hr (Nat.le_refl _) h).mono
        fun k hk => by rw [hk]; exact fun hn => nomatch hn

theorem expression_reads : Reads expression Rule.expression.Derives :=
  fun ts _ _ h => (expressionWithin_reads (ts.length + 1)).1 h

end Parse

end Tudlo
