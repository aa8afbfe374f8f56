import Tudlo.Proofs.Grammar.Loops

/-!
# The parentheses around the clauses of a loop

The clauses of a loop can be in parentheses, and any of them can begin or end with a
parenthesis of its own. Which one it is that comes first is decided before a clause is read,
by a search for its partner. The search looks at nothing but parentheses, and it agrees with
the grammar because the grammar has parentheses in pairs only: clauses that were read in
some place are derived, and what is derived the search passes over.

When the partner or the block after it is missing, the search fails. Then the first
parenthesis is taken for one of the first clause, which it cannot belong to. So the error is
not about what is missing, and it comes early: at the first comma, or at the keyword of a
first clause that declares.

* `Parse.statement_with_and_without`: a loop is the same with and without parentheses;
* `Parse.statement_of_unfinished`: what becomes of a loop that does not close its
  parentheses, or that has no block.
-/

namespace Tudlo

variable {ts us vs bs xs ys zs rest : List Token} {k o p c c' t : Token}

namespace Parse

variable {α : Type} {initial step s : Statement} {condition e : Expr} {body : Block}

/-! ### From clauses that are read to clauses that are derived -/

/-- What a rule consumes of the tokens belongs to what it gives. -/
theorem Reads.stretch {rule : Parse α} {D : List Token → α → Prop} (h : Reads rule D) {a : α}
    (hr : rule (ts ++ rest) = .ok a rest) : D ts a := by
  obtain ⟨us, hu, hd⟩ := h hr
  rwa [List.append_cancel_right hu]

/-- Names go on as long as there are commas. -/
theorem nextIsNot_of_names {ss : List String} (h : names ts = .ok ss rest) :
    NextIsNot (· = .symbol .comma) rest := by
  fun_induction names ts generalizing ss rest with
  | case1 => cases h
  | case2 t s comma others hk hc ss' left hr ih =>
    obtain ⟨-, rfl⟩ := EStateM.Result.ok.inj h
    exact ih hr
  | case3 => cases h
  | case4 t s comma others hk hc =>
    obtain ⟨-, rfl⟩ := EStateM.Result.ok.inj h
    exact nextIsNot_cons.2 hc
  | case5 t s hk =>
    obtain ⟨-, rfl⟩ := EStateM.Result.ok.inj h
    exact nextIsNot_nil _
  | case6 => cases h

/-- A declaration that stops before a comma has a value. -/
theorem endsBeforeComma_of_typed (hc : c.kind = .symbol .comma)
    (h : typed ts = .ok s (c :: rest)) : s.endsBeforeComma = true := by
  rw [typed, bind_eq_ok] at h
  obtain ⟨t, _, hp, h⟩ := h
  obtain ⟨us, rfl, rfl⟩ := peek_eq_ok hp
  generalize t.kind = kind at h
  split at h
  · rw [bind_of_ok (skip_cons t us)] at h
    replace h := bind_eq_ok.1 h
    obtain ⟨declared, mid, hn, h⟩ := h
    rw [bind_eq_ok] at h
    obtain ⟨r, mid', ha, h⟩ := h
    rcases accept_eq_ok ha with ⟨q, rfl, -, rfl⟩ | ⟨rfl, rfl, -⟩
    · rw [Option.isSome_some, if_pos rfl, bind_eq_ok] at h
      obtain ⟨e, _, -, h⟩ := h
      obtain ⟨rfl, -⟩ := pure_eq_ok.1 h
      rfl
    · -- Without a value the names end here, and they do not end before a comma.
      obtain ⟨-, rfl⟩ := pure_eq_ok.1 h
      exact absurd hc (nextIsNot_cons.1 (nextIsNot_of_names hn))
  · exact absurd h throw_ne_ok

theorem endsBeforeComma_of_clause (hc : c.kind = .symbol .comma)
    (h : clause ts = .ok s (c :: rest)) : s.endsBeforeComma = true := by
  rw [clause, bind_eq_ok] at h
  obtain ⟨r, mid, ha, h⟩ := h
  rcases accept_eq_ok ha with ⟨t, rfl, -, rfl⟩ | ⟨rfl, rfl, -⟩
  · exact endsBeforeComma_of_typed hc h
  · obtain ⟨_, -, t, ws, e, -, rfl, -⟩ := computation_reads h
    rfl

/-! ### With and without parentheses -/

/-- Parentheses around the clauses of a loop make no difference.

    The clauses are any stretches of tokens that are read as clauses: the first one up to a
    comma, the others up to whatever followed them. Then the loop is read with parentheses
    around the clauses and without them, as the same loop, with the same tokens left. It is
    also known from the tokens which of the two it is, however many parentheses the clauses
    begin or end with. -/
theorem statement_with_and_without (hk : k.kind = .keyword .alangSa)
    (ho : o.kind = .symbol .openParen) (hp : p.kind = .symbol .closeParen)
    (hc : c.kind = .symbol .comma) (hc' : c'.kind = .symbol .comma)
    (hi : clause (ts ++ c :: xs) = .ok initial (c :: xs))
    (he : expression (us ++ ys) = .ok condition ys) (hs : clause (vs ++ zs) = .ok step zs)
    (hb : block (bs ++ rest) = .ok body rest) :
    (statement (k :: o :: (ts ++ c :: (us ++ c' :: (vs ++ p :: (bs ++ rest))))) =
        .ok (.loop initial condition step body k.pos) rest ∧
      clausesInParentheses (o :: (ts ++ c :: (us ++ c' :: (vs ++ p :: (bs ++ rest))))) = true) ∧
    statement (k :: (ts ++ c :: (us ++ c' :: (vs ++ (bs ++ rest))))) =
        .ok (.loop initial condition step body k.pos) rest ∧
      clausesInParentheses (ts ++ c :: (us ++ c' :: (vs ++ (bs ++ rest)))) = false := by
  have hd : ClausesDerive (ts ++ c :: (us ++ c' :: vs)) initial condition step :=
    .mk (clause_reads.stretch hi) hc (expression_reads.stretch he) hc' (clause_reads.stretch hs)
  have hi' : initial.endsBeforeComma = true := endsBeforeComma_of_clause hc hi
  obtain ⟨u, ws, rfl, hu⟩ := cons_of_block hb
  have hl : o :: (ts ++ c :: (us ++ c' :: (vs ++ p :: (u :: ws ++ rest)))) =
      o :: (ts ++ c :: (us ++ c' :: vs) ++ [p]) ++ u :: (ws ++ rest) := by simp
  have hl' : ts ++ c :: (us ++ c' :: (vs ++ (u :: ws ++ rest))) =
      ts ++ c :: (us ++ c' :: vs) ++ u :: (ws ++ rest) := by simp
  rw [statement_of_alangSa hk, statement_of_alangSa hk, hl, hl']
  refine ⟨⟨?_, ?_⟩, ?_, hd.not_inParentheses⟩
  · refine loop_of_header (.inParentheses ho hd hp) hi' hu (blockOf_of_block hb ?_)
    simp only [List.length_append, List.length_cons]
    omega
  · rw [List.cons_append, List.append_assoc, List.singleton_append]
    exact clausesInParentheses_eq_true ho hd.passes hp hu
  · refine loop_of_header (.bare hd) hi' hu (blockOf_of_block hb ?_)
    simp only [List.length_append, List.length_cons]
    omega

/-- The tokens of a loop whose first clause is in two pairs of parentheses, and the last one
    in a pair right before the block. -/
def bracketedTokens : List Token := inColumns
  [.keyword .alangSa, .symbol .openParen, .symbol .openParen, .name "i", .symbol .assign,
   .literal (.integer 1), .symbol .closeParen, .symbol .closeParen, .symbol .comma, .name "i",
   .symbol .less, .literal (.integer 3), .symbol .comma, .symbol .openParen, .name "i",
   .symbol .assign, .name "i", .symbol .plus, .literal (.integer 1), .symbol .closeParen,
   .keyword .pundok, .symbol .openBrace, .symbol .closeBrace, .ending]

/-- The loop is read as it is, and with one more pair of parentheses. -/
theorem statement_with_and_without_bracketed :
    ∃ initial condition step body,
      clause ((bracketedTokens.drop 1).take 7 ++ bracketedTokens.drop 8) =
        .ok initial (bracketedTokens.drop 8) ∧
      expression ((bracketedTokens.drop 9).take 3 ++ bracketedTokens.drop 12) =
        .ok condition (bracketedTokens.drop 12) ∧
      clause ((bracketedTokens.drop 13).take 7 ++ bracketedTokens.drop 20) =
        .ok step (bracketedTokens.drop 20) ∧
      block (bracketedTokens.drop 20) = .ok body (bracketedTokens.drop 23) ∧
      statement (bracketedTokens.take 1 ++ ⟨.symbol .openParen, "", ⟨2, 1⟩⟩ ::
        ((bracketedTokens.drop 1).take 19 ++ ⟨.symbol .closeParen, "", ⟨2, 2⟩⟩ ::
          bracketedTokens.drop 20)) =
        .ok (.loop initial condition step body ⟨1, 1⟩) (bracketedTokens.drop 23) ∧
      statement bracketedTokens =
        .ok (.loop initial condition step body ⟨1, 1⟩) (bracketedTokens.drop 23) := by
  have hi : clause ((bracketedTokens.drop 1).take 7 ++ ⟨.symbol .comma, "", ⟨1, 9⟩⟩ ::
      bracketedTokens.drop 9) =
      .ok _ (⟨.symbol .comma, "", ⟨1, 9⟩⟩ :: bracketedTokens.drop 9) := rfl
  have he : expression ((bracketedTokens.drop 9).take 3 ++ bracketedTokens.drop 12) =
      .ok _ (bracketedTokens.drop 12) := rfl
  have hs : clause ((bracketedTokens.drop 13).take 7 ++ bracketedTokens.drop 20) =
      .ok _ (bracketedTokens.drop 20) := rfl
  have hb : block ((bracketedTokens.drop 20).take 3 ++ bracketedTokens.drop 23) =
      .ok _ (bracketedTokens.drop 23) := rfl
  have hc' : (⟨.symbol .comma, "", ⟨1, 13⟩⟩ : Token).kind = .symbol .comma := rfl
  have h := statement_with_and_without (k := ⟨.keyword .alangSa, "", ⟨1, 1⟩⟩)
    (o := ⟨.symbol .openParen, "", ⟨2, 1⟩⟩) (p := ⟨.symbol .closeParen, "", ⟨2, 2⟩⟩)
    rfl rfl rfl rfl hc' hi he hs hb
  exact ⟨_, _, _, _, hi, he, hs, hb, h.1.1, h.2.1⟩

/-! ### An opening parenthesis that is taken for a part of the first clause -/

/-- No operator makes up for an operand that cannot be read. -/
theorem operations_of_error {operand : Parse Expr} {err : SyntaxError}
    (h : operand ts = .error err rest) (levels : List Level) :
    operations levels operand ts = .error err rest := by
  induction levels with
  | nil => exact h
  | cons l levels ih => exact bind_of_error ih

/-- An expression that begins with a parenthesis fails as what is inside fails. -/
theorem expressionWithin_of_openParen {n : Nat} {err : SyntaxError}
    (ho : o.kind = .symbol .openParen)
    (h : (do let inner ← expressionWithin n
             expect (.symbol .closeParen) .closeExpression
             return inner : Parse Expr) ts = .error err rest) :
    expressionWithin (n + 1) (o :: ts) = .error err rest := by
  have hu : unary (primary (expressionWithin n)) (o :: ts) = .error err rest := by
    rw [unary_of_nextIsNot, primary_of_openParen ho]
    · exact h
    · rw [nextIsNot_cons, ho]
      exact fun hn => hn rfl
  exact bind_of_error (bind_of_error (operations_of_error hu Level.all))

/-- An expression in parentheses has to be followed by the closing one. -/
theorem expression_of_unclosed (ho : o.kind = .symbol .openParen)
    (h : Rule.expression.Derives ts e) (hc : c.kind = .symbol .comma) :
    expression (o :: (ts ++ c :: rest)) =
      .error ⟨.tokenExpected .closeExpression c.describe, c.pos⟩ (c :: rest) := by
  have hn : ts.length ≤ (ts ++ c :: rest).length := by simp
  have hi : expressionWithin ((ts ++ c :: rest).length + 1) (ts ++ c :: rest) =
      .ok e (c :: rest) := h.accepts.eq_ok (by decide) hn (stops_comma hc)
  refine expressionWithin_of_openParen ho ((bind_of_ok hi).trans (bind_of_error ?_))
  exact expect_of_ne (by rw [hc]; exact fun h => by cases h)

/-- The keyword for declarations is not in the place of an expression. -/
theorem expressionWithin_of_mugna {n : Nat} (ht : t.kind = .keyword .mugna) :
    expressionWithin (n + 1) (t :: ts) =
      .error ⟨.expressionExpected t.describe, t.pos⟩ (t :: ts) := by
  have hu : unary (primary (expressionWithin n)) (t :: ts) =
      .error ⟨.expressionExpected t.describe, t.pos⟩ (t :: ts) := by
    rw [unary_of_nextIsNot, primary_of_ne]
    · exact fun l h => by cases ht.symm.trans h
    · exact fun s h => by cases ht.symm.trans h
    · exact fun h => by cases ht.symm.trans h
    · rw [nextIsNot_cons, ht]
      exact fun hn => hn rfl
  exact bind_of_error (bind_of_error (operations_of_error hu Level.all))

/-- A declaration is not an expression, also when it is in parentheses. -/
theorem expression_of_mugna (ho : o.kind = .symbol .openParen) (ht : t.kind = .keyword .mugna) :
    expression (o :: t :: ts) = .error ⟨.expressionExpected t.describe, t.pos⟩ (t :: ts) :=
  expressionWithin_of_openParen ho (bind_of_error (expressionWithin_of_mugna ht))

/-- A loop whose first token is a parenthesis of the first clause fails as that clause
    does. -/
theorem loop_of_error {b : Parse Block} {pos : Position} {err : SyntaxError}
    (ho : o.kind = .symbol .openParen) (hn : clausesInParentheses (o :: ts) = false)
    (h : expression (o :: ts) = .error err rest) : loop b pos (o :: ts) = .error err rest := by
  have hx : clause (o :: ts) = .error err rest := by
    rw [clause, bind_of_ok (accept_of_ne (nextIsNot_cons.2 fun h => by cases ho.symm.trans h))]
    exact (bind_of_ok (peek_cons o ts)).trans (bind_of_error h)
  rw [loop_of_bare hn]
  exact bind_of_error (bind_of_error hx)

end Parse

/-! ### Loops that are not finished -/

open Parse

/-- What comes after the clauses of a loop does not close the parenthesis before them, or it
    does and no block follows. -/
inductive Unfinished : List Token → Prop
  | unclosed {rest : List Token} (h : ∀ u ∈ rest, u.kind ≠ .symbol .closeParen) : Unfinished rest
  | bodiless {p : Token} {rest : List Token} (hp : p.kind = .symbol .closeParen)
      (hr : NextIsNot TokenKind.OpensBlock rest) : Unfinished (p :: rest)

/-- Where there is no closing parenthesis none is found. -/
theorem afterParentheses_eq_none (h : ∀ u ∈ ts, u.kind ≠ .symbol .closeParen) (depth : Nat) :
    afterParentheses depth ts = none := by
  induction ts generalizing depth with
  | nil => rfl
  | cons u ts ih =>
    rw [List.forall_mem_cons] at h
    rw [afterParentheses.eq_def]
    dsimp only
    split
    · exact ih h.2 _
    · exact absurd ‹_› h.1
    · rfl
    · exact ih h.2 _

/-- The parenthesis before the clauses of an unfinished loop is not known as such. -/
theorem Unfinished.not_inParentheses (h : Unfinished rest) (hp : Passes ts) :
    clausesInParentheses (o :: (ts ++ rest)) = false := by
  cases h with
  | unclosed h =>
    rw [clausesInParentheses, hp, afterParentheses_eq_none h]
    exact Bool.and_false _
  | bodiless hc hr => exact clausesInParentheses_eq_false hp hc hr

namespace Parse

/-- A loop with an opening parenthesis before its clauses, but without the closing one or
    without a block, is refused because of its first clause.

    When that is an expression, it is the closing parenthesis of the expression that is
    missed, at the comma after it. When it is a declaration, there should have been an
    expression, and the error is at its keyword. What is missing in truth, and where, makes
    no difference. -/
theorem statement_of_unfinished {condition : Expr} {step : Statement}
    (hk : k.kind = .keyword .alangSa) (ho : o.kind = .symbol .openParen)
    (hc : c.kind = .symbol .comma) (he : Rule.expression.Derives us condition)
    (hc' : c'.kind = .symbol .comma) (hs : ClauseDerives vs step) (hr : Unfinished rest) :
    (∀ ts e, Rule.expression.Derives ts e →
      statement (k :: o :: (ts ++ c :: (us ++ c' :: (vs ++ rest)))) =
        .error ⟨.tokenExpected .closeExpression c.describe, c.pos⟩
          (c :: (us ++ c' :: (vs ++ rest)))) ∧
    ∀ t ts s, t.kind = .keyword .mugna → TypedDerives ts s →
      statement (k :: o :: t :: (ts ++ c :: (us ++ c' :: (vs ++ rest)))) =
        .error ⟨.expressionExpected t.describe, t.pos⟩
          (t :: (ts ++ c :: (us ++ c' :: (vs ++ rest)))) := by
  -- Whatever the first clause is, the search does not end at a parenthesis before a block.
  have hn {ts : List Token} {initial : Statement} (hi : ClauseDerives ts initial) :
      clausesInParentheses (o :: (ts ++ c :: (us ++ c' :: (vs ++ rest)))) = false := by
    have hd : ClausesDerive (ts ++ c :: (us ++ c' :: vs)) initial condition step :=
      .mk hi hc he hc' hs
    have h := hr.not_inParentheses (o := o) hd.passes
    simpa using h
  refine ⟨fun ts e hd => ?_, fun t ts s ht hd => ?_⟩
  · obtain ⟨u, ws, rfl, -⟩ := hd.head
    rw [statement_of_alangSa hk]
    exact loop_of_error ho (hn (.computed hd)) (expression_of_unclosed ho hd hc)
  · rw [statement_of_alangSa hk]
    exact loop_of_error ho (hn (.declared ht hd)) (expression_of_mugna ho ht)

/-- The tokens of a loop that does not close the parenthesis before its clauses. -/
def unclosedTokens : List Token := inColumns
  [.keyword .alangSa, .symbol .openParen, .keyword .mugna, .keyword (.scalar .integer),
   .name "i", .symbol .assign, .literal (.integer 0), .symbol .comma, .name "i", .symbol .less,
   .literal (.integer 3), .symbol .comma, .name "i", .symbol .assign, .name "i", .symbol .plus,
   .literal (.integer 1), .symbol .openBrace, .symbol .closeBrace, .ending]

/-- The loop is refused, at different places with and without the keyword and the type of its
    first clause. -/
theorem statement_of_unfinished_unclosed :
    Unfinished (unclosedTokens.drop 17) ∧
    (∃ e found, Rule.expression.Derives ((unclosedTokens.drop 4).take 3) e ∧
      statement (unclosedTokens.take 2 ++ unclosedTokens.drop 4) =
        .error ⟨.tokenExpected .closeExpression found, ⟨1, 8⟩⟩ (unclosedTokens.drop 7)) ∧
    ∃ s found, TypedDerives ((unclosedTokens.drop 3).take 4) s ∧
      statement unclosedTokens =
        .error ⟨.expressionExpected found, ⟨1, 3⟩⟩ (unclosedTokens.drop 2) := by
  have hr : Unfinished (unclosedTokens.drop 17) := .unclosed (by decide)
  have he : expression ((unclosedTokens.drop 8).take 3) = .ok _ [] := rfl
  have hs : clause ((unclosedTokens.drop 12).take 5) = .ok _ [] := rfl
  have hi : expression ((unclosedTokens.drop 4).take 3) = .ok _ [] := rfl
  have hd : typed ((unclosedTokens.drop 3).take 4) = .ok _ [] := rfl
  have hc' : (⟨.symbol .comma, "", ⟨1, 12⟩⟩ : Token).kind = .symbol .comma := rfl
  have h := statement_of_unfinished (k := ⟨.keyword .alangSa, "", ⟨1, 1⟩⟩)
    (o := ⟨.symbol .openParen, "", ⟨1, 2⟩⟩) (c := ⟨.symbol .comma, "", ⟨1, 8⟩⟩)
    rfl rfl rfl (expression_reads.whole he) hc' (clause_reads.whole hs) hr
  have h₁ := h.1 _ _ (expression_reads.whole hi)
  have h₂ := h.2 ⟨.keyword .mugna, "", ⟨1, 3⟩⟩ _ _ rfl (typed_reads.whole hd)
  exact ⟨hr, ⟨_, _, expression_reads.whole hi, h₁⟩, _, _, typed_reads.whole hd, h₂⟩

/-- All that is wrong with the loop is that a closing parenthesis is missing: its clauses are
    derived, a block that is read follows, and there are no further parentheses. But what it
    is refused for is that an expression is missing. -/
theorem refuses_unclosed :
    ClauseDerives ((unclosedTokens.drop 2).take 5)
      (.declare .integer ["i"] (some (.literal (.integer 0) ⟨1, 7⟩)) ⟨1, 4⟩) ∧
    Rule.expression.Derives ((unclosedTokens.drop 8).take 3)
      (.binary .less (.var "i" ⟨1, 9⟩) (.literal (.integer 3) ⟨1, 11⟩) ⟨1, 10⟩) ∧
    ClauseDerives ((unclosedTokens.drop 12).take 5)
      (.compute (.assign "i" (.binary .add (.var "i" ⟨1, 15⟩) (.literal (.integer 1) ⟨1, 17⟩)
        ⟨1, 16⟩) ⟨1, 13⟩) ⟨1, 13⟩) ∧
    block (unclosedTokens.drop 17) = .ok ⟨[], ⟨1, 18⟩⟩ (unclosedTokens.drop 19) ∧
    (∀ u ∈ unclosedTokens.drop 17,
      u.kind ≠ .symbol .openParen ∧ u.kind ≠ .symbol .closeParen) ∧
    (∃ found, statement unclosedTokens =
      .error ⟨.expressionExpected found, ⟨1, 3⟩⟩ (unclosedTokens.drop 2)) ∧
    ∀ expected found pos left,
      statement unclosedTokens ≠ .error ⟨.tokenExpected expected found, pos⟩ left := by
  have hi : clause ((unclosedTokens.drop 2).take 5) = .ok _ [] := rfl
  have he : expression ((unclosedTokens.drop 8).take 3) = .ok _ [] := rfl
  have hs : clause ((unclosedTokens.drop 12).take 5) = .ok _ [] := rfl
  have hn : clausesInParentheses (unclosedTokens.drop 1) = false := rfl
  have h : statement unclosedTokens = .error ⟨.expressionExpected _, ⟨1, 3⟩⟩ _ :=
    (statement_of_alangSa rfl _).trans (loop_of_error rfl hn (expression_of_mugna rfl rfl))
  refine ⟨clause_reads.whole hi, expression_reads.whole he, clause_reads.whole hs, rfl,
    by decide, ⟨_, h⟩, fun expected found pos left h' => ?_⟩
  rw [h] at h'
  cases h'

end Parse

end Tudlo
