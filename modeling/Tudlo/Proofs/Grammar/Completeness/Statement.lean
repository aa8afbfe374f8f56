import Tudlo.Proofs.Grammar.Completeness.Expression
import Tudlo.Proofs.Grammar.Soundness.Statement

/-!
# What is derived as a clause is read

Statements follow one another without a mark between them, so where one ends is
decided by the token after it: one that *separates* (`TokenKind.separates`)
goes on with no statement. Before such a token, names, declarations and the
clauses of loops are read as they are derived.

Whether the clauses of a loop are in parentheses is found out by looking for
the parenthesis that closes the first one. What the grammar derives has its
parentheses in pairs, so the search passes over it (`Rule.Derives.passes`,
`ClausesDerive.passes`).
-/

namespace Tudlo

open Parse

/-- Whether a token can follow every statement. The others are the operators,
    the equals sign, the comma and the keywords for further conditions. -/
def TokenKind.separates : TokenKind → Bool
  | .symbol .openParen => true
  | .symbol .closeParen => true
  | .symbol .openBrace => true
  | .symbol .closeBrace => true
  | .symbol .colon => true
  | .symbol _ => false
  | .keyword .o => false
  | .keyword .ug => false
  | .keyword .kungDili => false
  | .keyword .kungWala => false
  | _ => true

/-- The next token is there, and can follow every statement. -/
def Boundary (ts : List Token) : Prop :=
  ∃ t us, ts = t :: us ∧ t.kind.separates = true

variable {ts rest : List Token} {t : Token} {s : Statement}

theorem boundary_cons (h : t.kind.separates = true) : Boundary (t :: ts) :=
  ⟨t, ts, rfl, h⟩

/-- No operator with two operands separates. -/
theorem BinaryOp.separates_token (op : BinaryOp) : op.token.separates = false := by
  cases op <;> rfl

/-- A token of a kind that does not separate is not the next one. -/
theorem Boundary.nextIsNot {sort : TokenKind → Prop} (h : Boundary rest)
    (hs : ∀ k, sort k → k.separates = false) : NextIsNot sort rest := by
  obtain ⟨t, us, rfl, ht⟩ := h
  rw [nextIsNot_cons]
  intro hk
  rw [hs _ hk] at ht
  exact nomatch ht

theorem Boundary.stops (h : Boundary rest) : Rule.expression.Stops rest := by
  refine ⟨h.nextIsNot ?_, h.nextIsNot ?_⟩
  · rintro k ⟨op, rfl, _⟩
    exact op.separates_token
  · rintro k rfl
    rfl

theorem Boundary.nextIsNot_comma (h : Boundary rest) : NextIsNot (· = .symbol .comma) rest :=
  h.nextIsNot (by rintro k rfl; rfl)

/-- A comma goes on with no expression. -/
theorem stops_comma (h : t.kind = .symbol .comma) : Rule.expression.Stops (t :: rest) := by
  refine Rule.stops_cons (fun op => ?_) ?_ <;> rw [h]
  · cases op <;> exact fun h => nomatch h
  · exact fun h => nomatch h

/-- Whether a clause ends before a comma. Names without a value do not: the
    comma goes on with the names. -/
def Statement.endsBeforeComma : Statement → Bool
  | .declare _ _ none _ => false
  | _ => true

/-- Whether a token can be the first one of an expression. -/
def TokenKind.beginsExpression : TokenKind → Bool
  | .literal _ => true
  | .name _ => true
  | .symbol .openParen => true
  | k => (unaryOperator? k).isSome

/-- Whether a token is neither a parenthesis nor the end of the text. -/
def TokenKind.isNeutral : TokenKind → Bool
  | .symbol .openParen => false
  | .symbol .closeParen => false
  | .ending => false
  | _ => true

theorem Rule.Derives.head {r : Rule} {e : Expr} (h : r.Derives ts e) :
    ∃ t us, ts = t :: us ∧ t.kind.beginsExpression = true := by
  induction h with
  | literal hk => exact ⟨_, _, rfl, by rw [hk]; rfl⟩
  | name hk => exact ⟨_, _, rfl, by rw [hk]; rfl⟩
  | parentheses ho _ _ => exact ⟨_, _, rfl, by rw [ho]; rfl⟩
  | @unary op t ts e hk _ _ => exact ⟨t, ts, rfl, by rw [hk]; cases op <;> rfl⟩
  | operation _ _ _ _ ih _ | assign _ _ _ ih _ | next _ _ _ ih _ | last _ _ _ ih _ =>
    obtain ⟨t, us, rfl, ht⟩ := ih
    exact ⟨t, _, rfl, ht⟩
  | primary _ ih | operand _ ih | value _ ih | first _ ih | single _ ih => exact ih

namespace Parse

theorem names_of_derives {ss : List String} (h : NamesDerive ts ss)
    (hc : NextIsNot (· = .symbol .comma) rest) : names (ts ++ rest) = .ok ss rest := by
  induction h with
  | last hk =>
    cases rest with
    | nil =>
      rw [List.append_nil, names]
      exact hk
    | cons c rest =>
      exact names_of_name hk (nextIsNot_cons.1 hc)
  | more hk hck _ ih => exact (names_of_comma hk hck).trans (bind_of_ok ih)

/-- A declaration without a value is read when neither a comma nor an equals
    sign follows. -/
theorem typed_of_bare {type : ScalarType} {ss : List String}
    (hk : t.kind = .keyword (.scalar type)) (hn : NamesDerive ts ss)
    (hc : NextIsNot (· = .symbol .comma) rest) (hq : NextIsNot (· = .symbol .assign) rest) :
    typed (t :: ts ++ rest) = .ok (.declare type ss none t.pos) rest := by
  rw [List.cons_append, typed_of_scalar hk]
  refine (bind_of_ok (names_of_derives hn hc)).trans ?_
  rw [bind_of_ok (accept_of_ne hq)]
  rfl

/-- A declaration with a value is read before every token that does not go on
    with the value. -/
theorem typed_of_initialised {q : Token} {type : ScalarType} {us : List Token}
    {ss : List String} {e : Expr} (hk : t.kind = .keyword (.scalar type))
    (hn : NamesDerive ts ss) (hq : q.kind = .symbol .assign)
    (he : Rule.expression.Derives us e) (hs : Rule.expression.Stops rest) :
    typed (t :: (ts ++ q :: us) ++ rest) = .ok (.declare type ss (some e) t.pos) rest := by
  have hc : NextIsNot (· = .symbol .comma) (q :: (us ++ rest)) := by
    rw [nextIsNot_cons, hq]
    exact fun h => nomatch h
  rw [List.cons_append, List.append_assoc, List.cons_append, typed_of_scalar hk]
  refine (bind_of_ok (names_of_derives hn hc)).trans ?_
  rw [bind_of_ok (accept_of_eq hq)]
  dsimp only [Option.isSome_some, if_true]
  rw [if_pos rfl, bind_of_ok (expression_of_derives he hs)]
  rfl

/-! ### Clauses -/

/-- An expression as a statement is read when the next token does not go on
    with it. -/
theorem computation_of_derives {e : Expr} (h : Rule.expression.Derives (t :: ts) e)
    (hs : Rule.expression.Stops rest) :
    computation (t :: ts ++ rest) = .ok (.compute e t.pos) rest := by
  have he := expression_of_derives h hs
  rw [computation, List.cons_append, bind_of_ok (peek_cons _ _)]
  exact (bind_of_ok he).trans rfl

/-- A clause is read when the next token does not go on with it. For names
    without a value a comma would. -/
theorem clause_of_derives (h : ClauseDerives ts s) (hs : Rule.expression.Stops rest)
    (hc : s.endsBeforeComma = true ∨ NextIsNot (· = .symbol .comma) rest) :
    clause (ts ++ rest) = .ok s rest := by
  cases h with
  | declared hk hd =>
    rw [clause, List.cons_append, bind_of_ok (accept_of_eq hk)]
    dsimp only [Option.isSome_some]
    rw [if_pos rfl]
    cases hd with
    | bare ht hn =>
      rcases hc with hc | hc
      · exact absurd hc Bool.false_ne_true
      · exact typed_of_bare ht hn hc hs.2
    | initialised ht hn hq he => exact typed_of_initialised ht hn hq he hs
  | computed he =>
    rw [clause, bind_of_ok (accept_of_ne ?_)]
    · exact computation_of_derives he hs
    · -- No expression begins with the keyword for declarations.
      obtain ⟨t, us, hu, ht⟩ := he.head
      obtain ⟨rfl, rfl⟩ := List.cons.inj hu
      rw [List.cons_append, nextIsNot_cons]
      intro hk
      rw [hk] at ht
      exact Bool.false_ne_true ht

theorem clauses_of_derives {initial step : Statement} {condition : Expr}
    (h : ClausesDerive ts initial condition step) (hi : initial.endsBeforeComma = true)
    (hb : Boundary rest) : clauses (ts ++ rest) = .ok (initial, condition, step) rest := by
  obtain ⟨hdi, hc, hde, hc', hds⟩ := h
  rw [List.append_assoc, List.cons_append, List.append_assoc, List.cons_append, clauses,
    bind_of_ok (clause_of_derives hdi (stops_comma hc) (.inl hi)),
    bind_of_ok (expect_of_eq hc),
    bind_of_ok (expression_of_derives hde (stops_comma hc')),
    bind_of_ok (expect_of_eq hc'),
    bind_of_ok (clause_of_derives hds hb.stops (.inr hb.nextIsNot_comma))]
  rfl

end Parse

/-! ### Parentheses in pairs -/

/-- The search for a closing parenthesis passes over the stretch. -/
def Passes (ts : List Token) : Prop :=
  ∀ depth rest, afterParentheses depth (ts ++ rest) = afterParentheses depth rest

theorem Passes.append {us : List Token} (h : Passes ts) (hu : Passes us) : Passes (ts ++ us) := by
  intro depth rest
  rw [List.append_assoc, h, hu]

/-- Only parentheses and the end of the text matter to the search. -/
theorem Passes.cons (hk : t.kind.isNeutral = true) (h : Passes ts) : Passes (t :: ts) := by
  intro depth rest
  rw [List.cons_append, afterParentheses.eq_def]
  dsimp only
  split
  · rename_i ho
    rw [ho] at hk
    exact nomatch hk
  · rename_i hc
    rw [hc] at hk
    exact nomatch hk
  · rename_i he
    rw [he] at hk
    exact nomatch hk
  · exact h depth rest

theorem passes_nil : Passes [] :=
  fun _ _ => rfl

/-- A stretch in parentheses. -/
theorem Passes.parentheses {o c : Token} (ho : o.kind = .symbol .openParen) (h : Passes ts)
    (hc : c.kind = .symbol .closeParen) : Passes (o :: (ts ++ [c])) := by
  intro depth rest
  rw [List.cons_append, List.append_assoc, afterParentheses.eq_def]
  simp only [ho]
  rw [h, List.singleton_append, afterParentheses, hc]

/-- In what a rule derives, every parenthesis has its partner. -/
theorem Rule.Derives.passes {r : Rule} {e : Expr} (h : r.Derives ts e) : Passes ts := by
  induction h with
  | literal hk => exact .cons (by rw [hk]; rfl) passes_nil
  | name hk => exact .cons (by rw [hk]; rfl) passes_nil
  | parentheses ho _ hc ih => exact ih.parentheses ho hc
  | @unary op t ts e hk _ ih => exact .cons (by rw [hk]; cases op <;> rfl) ih
  | @operation op l t ts us e d hl _ hk _ ih ihd =>
    exact ih.append (.cons (by rw [hk]; cases op <;> rfl) ihd)
  | assign _ hk _ ih ihx => exact ih.append (.cons (by rw [hk]; rfl) ihx)
  | next _ hk _ ih ihd => exact ih.append (.cons (by rw [hk]; rfl) ihd)
  | last _ hk _ ih ihd => exact ih.append (.cons (by rw [hk]; rfl) ihd)
  | primary _ ih | operand _ ih | value _ ih | first _ ih | single _ ih => exact ih

theorem NamesDerive.passes {ss : List String} (h : NamesDerive ts ss) : Passes ts := by
  induction h with
  | last hk => exact .cons (by rw [hk]; rfl) passes_nil
  | more hk hc _ ih => exact .cons (by rw [hk]; rfl) (.cons (by rw [hc]; rfl) ih)

theorem ClauseDerives.passes (h : ClauseDerives ts s) : Passes ts := by
  cases h with
  | declared hk hd =>
    refine .cons (by rw [hk]; rfl) ?_
    cases hd with
    | bare ht hn => exact .cons (by rw [ht]; rfl) hn.passes
    | initialised ht hn hq he =>
      exact .cons (by rw [ht]; rfl) (hn.passes.append (.cons (by rw [hq]; rfl) he.passes))
  | computed he => exact he.passes

theorem ClausesDerive.passes {initial step : Statement} {condition : Expr}
    (h : ClausesDerive ts initial condition step) : Passes ts := by
  obtain ⟨hdi, hc, hde, hc', hds⟩ := h
  exact hdi.passes.append (.cons (by rw [hc]; rfl)
    (hde.passes.append (.cons (by rw [hc']; rfl) hds.passes)))

/-- What follows the parenthesis that closes a stretch with its parentheses in
    pairs. -/
theorem Passes.afterParentheses_eq {c : Token} (h : Passes ts)
    (hc : c.kind = .symbol .closeParen) : afterParentheses 0 (ts ++ c :: rest) = some rest := by
  rw [h, afterParentheses, hc]

/-- A block can begin with the token. -/
def TokenKind.OpensBlock (k : TokenKind) : Prop :=
  k = .symbol .openBrace ∨ k = .keyword .pundok

/-- Clauses before a block are in parentheses when they are closed right before
    it. -/
theorem clausesInParentheses_eq_true {o c u : Token} (ho : o.kind = .symbol .openParen)
    (h : Passes ts) (hc : c.kind = .symbol .closeParen) (hu : u.kind.OpensBlock) :
    clausesInParentheses (o :: (ts ++ c :: u :: rest)) = true := by
  rw [clausesInParentheses, h.afterParentheses_eq hc, ho]
  dsimp only
  rcases hu with hu | hu <;> rw [hu] <;> rfl

/-- A stretch in parentheses, when no block follows it, is not mistaken for clauses in
    parentheses. -/
theorem clausesInParentheses_eq_false {o c : Token} (h : Passes ts)
    (hc : c.kind = .symbol .closeParen) (hr : NextIsNot TokenKind.OpensBlock rest) :
    clausesInParentheses (o :: (ts ++ c :: rest)) = false := by
  rw [clausesInParentheses, h.afterParentheses_eq hc]
  cases rest with
  | nil => exact Bool.and_false _
  | cons u rest =>
    obtain ⟨hb, hp⟩ := not_or.1 (nextIsNot_cons.1 hr)
    dsimp only
    rw [beq_eq_false_iff_ne.2 hb, beq_eq_false_iff_ne.2 hp]
    exact Bool.and_false _

theorem clausesInParentheses_of_ne (h : t.kind ≠ .symbol .openParen) :
    clausesInParentheses (t :: ts) = false := by
  rw [clausesInParentheses, beq_eq_false_iff_ne.2 h]
  exact Bool.false_and _

/-! ### Clauses without parentheses -/

/-- When no block follows, the stretch is not taken for clauses in parentheses. -/
def Unopened (ts : List Token) : Prop :=
  ∀ rest, NextIsNot TokenKind.OpensBlock rest → clausesInParentheses (ts ++ rest) = false

theorem unopened_of_ne (h : t.kind ≠ .symbol .openParen) : Unopened (t :: ts) :=
  fun _ _ => clausesInParentheses_of_ne h

/-- Nor is a longer stretch, if no block begins where it goes on. -/
theorem Unopened.append {us : List Token} (h : Unopened ts) (ht : ¬ t.kind.OpensBlock) :
    Unopened (ts ++ t :: us) := by
  intro rest _
  rw [List.append_assoc, List.cons_append]
  exact h _ (nextIsNot_cons.2 ht)

theorem BinaryOp.not_opensBlock_token (op : BinaryOp) : ¬ op.token.OpensBlock := by
  cases op <;> exact fun h => by rcases h with h | h <;> cases h

theorem not_opensBlock_symbol {k : TokenKind} {s : Symbol} (hk : k = .symbol s)
    (hs : s ≠ .openBrace) : ¬ k.OpensBlock := by
  rintro (h | h)
  · exact hs (TokenKind.symbol.inj (hk.symm.trans h))
  · cases hk.symm.trans h

/-- Within an expression no block begins. -/
theorem Rule.Derives.unopened {r : Rule} {e : Expr} (h : r.Derives ts e) : Unopened ts := by
  induction h with
  | literal hk => exact unopened_of_ne (by rw [hk]; exact fun h => by cases h)
  | name hk => exact unopened_of_ne (by rw [hk]; exact fun h => by cases h)
  | parentheses _ hd hc _ =>
    intro rest hr
    rw [List.cons_append, List.append_assoc]
    exact clausesInParentheses_eq_false hd.passes hc hr
  | @unary op t ts e hk _ _ =>
    refine unopened_of_ne ?_
    rw [hk]
    cases op <;> exact fun h => by cases h
  | @operation op l t ts us e d _ _ hk _ ih _ =>
    exact ih.append (hk ▸ op.not_opensBlock_token)
  | assign _ hk _ ih _ => exact ih.append (not_opensBlock_symbol hk (by decide))
  | next _ hk _ ih _ => exact ih.append (hk ▸ BinaryOp.join.not_opensBlock_token)
  | last _ hk _ ih _ => exact ih.append (hk ▸ BinaryOp.join.not_opensBlock_token)
  | primary _ ih | operand _ ih | value _ ih | first _ ih | single _ ih => exact ih

/-- Clauses without parentheses are not mistaken for clauses in parentheses: a parenthesis
    at the beginning is closed within the first clause. -/
theorem ClausesDerive.not_inParentheses {initial step : Statement} {condition : Expr}
    (h : ClausesDerive ts initial condition step) :
    clausesInParentheses (ts ++ rest) = false := by
  obtain ⟨hdi, hc, -, -, -⟩ := h
  have hn := not_opensBlock_symbol hc (by decide)
  rw [List.append_assoc, List.cons_append]
  cases hdi with
  | declared hk _ => exact clausesInParentheses_of_ne (by rw [hk]; exact fun h => by cases h)
  | computed he => exact he.unopened _ (nextIsNot_cons.2 hn)

end Tudlo
