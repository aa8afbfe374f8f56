import Tudlo.Proofs.Grammar.Parentheses

/-!
# What follows a block

A rule never looks at more than the token after the ones that it consumes. So when a rule
has succeeded and left a token, it does the same with any other tokens behind that one
(`Parse.Continues`). A block does not even need that token, since it ends with a brace of its
own (`Parse.Closes`).

There is one place where a rule looks further, the search for the parenthesis that closes the
clauses of a loop. But a loop that was read has derived clauses, and about these the search
is right whatever follows.

The numbers of rounds grow with the tokens. As in `Tudlo.Proofs.Grammar.Loops`, two rules are
compared, of which the second one has more rounds.

* `Parse.stops_of_expression`: an expression is read as far as possible;
* `Parse.block_append`: a block is read in the same way whatever follows it.
-/

namespace Tudlo

namespace Parse

variable {α β : Type} {ts rest more : List Token}

/-! ### An expression is read as far as possible -/

section Stops

variable {operator? : TokenKind → Option BinaryOp} {operand : Parse Expr} {e : Expr}
  {P : List Token → Prop}

/-- A chain ends right after one of its operands. -/
theorem chainFrom_ends (ho : ∀ ⦃ts e rest⦄, operand ts = .ok e rest → P rest) {budget : Nat}
    {left : Expr} (hp : P ts) (h : chainFrom operator? operand budget left ts = .ok e rest) :
    P rest := by
  induction budget generalizing ts left with
  | zero =>
    obtain ⟨-, rfl⟩ := pure_eq_ok.1 h
    exact hp
  | succ budget ih =>
    rw [chainFrom, bind_eq_ok] at h
    obtain ⟨r, mid, ht, h⟩ := h
    rcases takeIf_eq_ok ht with ⟨t, op, rfl, -, rfl⟩ | ⟨rfl, rfl, -⟩
    · rw [bind_eq_ok] at h
      obtain ⟨right, mid', hr, h⟩ := h
      exact ih (ho hr) h
    · obtain ⟨-, rfl⟩ := pure_eq_ok.1 h
      exact hp

theorem chain_ends (ho : ∀ ⦃ts e rest⦄, operand ts = .ok e rest → P rest)
    (h : chain operator? operand ts = .ok e rest) : P rest := by
  rw [chain_eq_ok] at h
  obtain ⟨left, mid, hl, h⟩ := h
  exact chainFrom_ends ho (ho hl) h

/-- A chain of operands that are stretches of the tokens is one. -/
theorem chain_reads (ho : Reads operand fun _ _ => True) :
    Reads (chain operator? operand) fun _ _ => True := by
  intro ts e rest h
  rw [chain_eq_ok] at h
  obtain ⟨left, mid, hl, h⟩ := h
  obtain ⟨us, rfl, -⟩ := ho hl
  obtain ⟨vs, rfl, -⟩ := @chainFrom_reads _ _ _ (fun _ _ => True) ho (fun _ _ _ => trivial) _ us
    left trivial _ _ _ h
  exact ⟨us ++ vs, (List.append_assoc ..).symm, trivial⟩

theorem nextIsNot_of_chain (ho : Reads operand fun _ _ => True)
    (h : chain operator? operand ts = .ok e rest) :
    NextIsNot (fun k => operator? k ≠ none) rest := by
  rw [chain_eq_ok] at h
  obtain ⟨left, mid, -, h⟩ := h
  exact nextIsNot_of_chainFrom ho (Nat.le_refl _) h

/-- After operations comes no operator of their levels. -/
theorem nextIsNot_of_operations (ho : Reads operand fun _ _ => True) (levels : List Level) :
    Reads (operations levels operand) (fun _ _ => True) ∧
      ∀ ⦃ts e rest⦄, operations levels operand ts = .ok e rest →
        ∀ l ∈ levels, NextIsNot (fun k => l.operator? k ≠ none) rest := by
  induction levels with
  | nil => exact ⟨ho, fun _ _ _ _ l hl => absurd hl List.not_mem_nil⟩
  | cons l levels ih =>
    refine ⟨chain_reads ih.1, fun ts e rest h l' hl => ?_⟩
    rcases List.mem_cons.1 hl with rfl | hl
    · exact nextIsNot_of_chain ih.1 h
    · exact chain_ends (P := fun rest => NextIsNot (fun k => l'.operator? k ≠ none) rest)
        (fun ts e rest h => ih.2 h l' hl) h

theorem loose_of_levels (h : ∀ l ∈ Level.all, NextIsNot (fun k => l.operator? k ≠ none) rest) :
    Loose 2 rest := by
  intro t ht
  rintro ⟨op, hk, hr⟩
  cases hl : op.level? with
  | none =>
    rw [BinaryOp.rank, hl] at hr
    exact absurd hr (by decide)
  | some l =>
    refine h l (by cases l <;> decide) t ht ?_
    show l.operator? t.kind ≠ none
    rw [Level.operator?_eq_some.2 ⟨hk, hl⟩]
    exact Option.some_ne_none op

/-- After an assignment comes no operator but the one that joins, and no equals sign. -/
theorem stops_of_assignment {expression : Parse Expr}
    (hx : Reads expression Rule.expression.Derives)
    (hs : ∀ ⦃ts e rest⦄, expression ts = .ok e rest → Rule.expression.Stops rest)
    (h : assignment expression ts = .ok e rest) : Rule.operands.Stops rest := by
  have hu : Reads (unary (primary expression)) fun _ _ => True := fun ts e rest h => by
    obtain ⟨us, hts, -⟩ := unary_reads (primary_reads hx) h
    exact ⟨us, hts, trivial⟩
  rw [assignment, bind_eq_ok] at h
  obtain ⟨target, mid, ht, h⟩ := h
  rw [bind_eq_ok] at h
  obtain ⟨r, mid', ha, h⟩ := h
  rcases accept_eq_ok ha with ⟨t, rfl, -, rfl⟩ | ⟨rfl, rfl, hn⟩
  · rw [bind_eq_ok] at h
    obtain ⟨value, _, hv, h⟩ := h
    split at h
    · obtain ⟨-, rfl⟩ := pure_eq_ok.1 h
      exact ⟨(hs hv).1.mono (by decide), (hs hv).2⟩
    · exact absurd h throw_ne_ok
  · obtain ⟨-, rfl⟩ := pure_eq_ok.1 h
    exact ⟨loose_of_levels ((nextIsNot_of_operations hu Level.all).2 ht), hn⟩

theorem stops_of_expressionWithin (rounds : Nat) :
    ∀ ⦃ts e rest⦄, expressionWithin rounds ts = .ok e rest → Rule.expression.Stops rest := by
  induction rounds with
  | zero => exact fun _ _ _ h => absurd h throw_ne_ok
  | succ rounds ih =>
    intro ts e rest h
    have hx := (expressionWithin_reads rounds).1
    obtain ⟨hl, ha⟩ : Rule.operands.Stops rest :=
      chain_ends (fun _ _ _ h => stops_of_assignment hx ih h) h
    have hj : NextIsNot (· = BinaryOp.join.token) rest := (expressionWithin_reads _).2 h
    refine ⟨fun t ht => ?_, ha⟩
    rintro ⟨op, hk, -⟩
    cases op with
    | join => exact hj t ht hk
    | _ => exact hl t ht ⟨_, hk, by decide⟩

/-- No token that could go on with an expression is left when it is read. -/
theorem stops_of_expression (h : expression ts = .ok e rest) : Rule.expression.Stops rest :=
  stops_of_expressionWithin _ h

end Stops

/-! ### More tokens at the end -/

/-- What comes next does not change. -/
theorem NextIsNot.append {sort : TokenKind → Prop} {t : Token} (h : NextIsNot sort (t :: rest)) :
    NextIsNot sort (t :: rest ++ more) :=
  nextIsNot_cons.2 (nextIsNot_cons.1 h)

/-- With more tokens at the end the second rule does what the first one does, as long as the
    first one leaves a token. Nothing comes from no tokens. -/
structure Continues (more : List Token) (x y : Parse α) : Prop where
  empty : ∀ ⦃a rest⦄, x [] = .ok a rest → rest = []
  ahead : ∀ ⦃ts a t rest⦄, x ts = .ok a (t :: rest) → y (ts ++ more) = .ok a (t :: rest ++ more)

/-- With more tokens at the end the second rule does what the first one does, which needs at
    least one token. -/
structure Closes (more : List Token) (x y : Parse α) : Prop where
  empty : ∀ ⦃a rest⦄, x [] ≠ .ok a rest
  ahead : ∀ ⦃ts a rest⦄, x ts = .ok a rest → y (ts ++ more) = .ok a (rest ++ more)

theorem Closes.continues {x y : Parse α} (h : Closes more x y) : Continues more x y :=
  ⟨fun _ _ hx => (h.empty hx).elim, fun _ _ _ _ hx => h.ahead hx⟩

/-- A rule consumes nothing when there is nothing. -/
theorem Reads.empty {x : Parse α} {D : List Token → α → Prop} (h : Reads x D) ⦃a : α⦄
    ⦃rest : List Token⦄ (hx : x [] = .ok a rest) : rest = [] := by
  obtain ⟨us, hu, -⟩ := h hx
  exact (List.append_eq_nil_iff.1 hu.symm).2

namespace Continues

protected theorem pure (a : α) : Continues more (pure a : Parse α) (pure a) where
  empty _ _ h := (pure_eq_ok.1 h).2
  ahead ts b t rest h := by
    obtain ⟨rfl, rfl⟩ := pure_eq_ok.1 h
    rfl

protected theorem throw (e : SyntaxError) (y : Parse α) : Continues more (throw e) y :=
  ⟨fun _ _ h => absurd h throw_ne_ok, fun _ _ _ _ h => absurd h throw_ne_ok⟩

protected theorem bind {x y : Parse α} {f g : α → Parse β} (h : Continues more x y)
    (hf : ∀ a, Continues more (f a) (g a)) : Continues more (x >>= f) (y >>= g) where
  empty b rest hx := by
    obtain ⟨a, mid, ha, hb⟩ := bind_eq_ok.1 hx
    obtain rfl := h.empty ha
    exact (hf a).empty hb
  ahead ts b t rest hx := by
    obtain ⟨a, mid, ha, hb⟩ := bind_eq_ok.1 hx
    cases mid with
    | nil => exact absurd ((hf a).empty hb) (List.cons_ne_nil t rest)
    | cons u mid => exact (bind_of_ok (h.ahead ha)).trans ((hf a).ahead hb)

/-- What comes after looking at all tokens that are left. -/
protected theorem get {f g : List Token → Parse β}
    (hf : ∀ ts, Continues more (f ts) (g (ts ++ more))) : Continues more (get >>= f) (get >>= g) :=
  ⟨fun _ _ h => (hf []).empty h, fun ts _ _ _ h => (hf ts).ahead h⟩

protected theorem resuming {x y : Parse α} (h : Continues more x y) :
    Continues more (resuming x) (resuming y) :=
  ⟨fun _ _ hx => h.empty (resuming_eq_ok.1 hx),
    fun _ _ _ _ hx => resuming_eq_ok.2 (h.ahead (resuming_eq_ok.1 hx))⟩

protected theorem peek : Continues more peek peek where
  empty _ _ h := by cases h
  ahead ts a t rest h := by
    obtain ⟨us, rfl, hu⟩ := peek_eq_ok h
    rw [hu]
    rfl

protected theorem skip : Continues more skip skip where
  empty _ _ h := (EStateM.Result.ok.inj h).2.symm
  ahead ts a t rest h := by
    cases ts with
    | nil => cases h
    | cons u us =>
      rw [← skip_eq_ok h]
      rfl

protected theorem accept (kind : TokenKind) : Continues more (accept kind) (accept kind) where
  empty _ _ h := (EStateM.Result.ok.inj h).2.symm
  ahead ts a t rest h := by
    rcases accept_eq_ok h with ⟨u, rfl, hu, rfl⟩ | ⟨rfl, rfl, hn⟩
    · exact accept_of_eq hu
    · exact accept_of_ne hn.append

protected theorem expect (kind : TokenKind) (expected : Expectation) :
    Continues more (expect kind expected) (expect kind expected) where
  empty _ _ h := by
    obtain ⟨t, ht, -⟩ := expect_eq_ok h
    cases ht
  ahead ts a t rest h := by
    obtain ⟨u, rfl, hu⟩ := expect_eq_ok h
    exact expect_of_eq hu

protected theorem names : Continues more names names where
  empty := names_reads.empty
  ahead ts ss t rest h := by
    obtain ⟨us, rfl, hd⟩ := names_reads h
    rw [List.append_assoc]
    exact names_of_derives hd (nextIsNot_of_names h).append

protected theorem expression : Continues more expression expression where
  empty := expression_reads.empty
  ahead ts e t rest h := by
    obtain ⟨us, rfl, hd⟩ := expression_reads h
    obtain ⟨hl, ha⟩ := stops_of_expression h
    rw [List.append_assoc]
    exact expression_of_derives hd ⟨NextIsNot.append hl, ha.append⟩

/-! ### Clauses -/

protected theorem typed : Continues more typed typed := by
  refine .bind .peek fun t => ?_
  split
  · refine .bind .skip fun _ => .bind .names fun declared => .bind (.accept _) fun r => ?_
    split_ifs
    · exact .bind .expression fun e => .pure _
    · exact .pure _
  · exact .throw _ _

protected theorem computation : Continues more computation computation :=
  .bind .peek fun _ => .bind .expression fun _ => .pure _

protected theorem clause : Continues more clause clause := by
  refine .bind (.accept _) fun r => ?_
  split_ifs
  · exact .typed
  · exact .computation

protected theorem clauses : Continues more clauses clauses :=
  .bind .clause fun _ => .bind (.expect _ _) fun _ => .bind .expression fun _ =>
    .bind (.expect _ _) fun _ => .bind .clause fun _ => .pure _

end Continues

/-- A parenthesis that is found is found whatever follows. -/
theorem afterParentheses_append {depth : Nat} (h : afterParentheses depth ts = some rest) :
    afterParentheses depth (ts ++ more) = some (rest ++ more) := by
  induction ts generalizing depth with
  | nil => cases h
  | cons t ts ih =>
    rw [afterParentheses.eq_def] at h
    rw [List.cons_append, afterParentheses.eq_def]
    dsimp only at h ⊢
    split at h
    · exact ih h
    · cases depth with
      | zero => rw [Option.some.inj h]
      | succ depth => exact ih h
    · cases h
    · exact ih h

theorem clausesInParentheses_append (h : clausesInParentheses ts = true) :
    clausesInParentheses (ts ++ more) = true := by
  cases ts with
  | nil => cases h
  | cons t ts =>
    rw [clausesInParentheses, Bool.and_eq_true] at h
    rw [List.cons_append, clausesInParentheses, h.1, Bool.true_and]
    cases ha : afterParentheses 0 ts with
    | none =>
      rw [ha] at h
      cases h.2
    | some us =>
      rw [ha] at h
      rw [afterParentheses_append ha]
      cases us with
      | nil => cases h.2
      | cons u us => exact h.2

namespace Closes

protected theorem bind {x y : Parse α} {f g : α → Parse β} (h : Continues more x y)
    (hf : ∀ a, Closes more (f a) (g a)) : Closes more (x >>= f) (y >>= g) where
  empty b rest hx := by
    obtain ⟨a, mid, ha, hb⟩ := bind_eq_ok.1 hx
    obtain rfl := h.empty ha
    exact (hf a).empty hb
  ahead ts b rest hx := by
    obtain ⟨a, mid, ha, hb⟩ := bind_eq_ok.1 hx
    cases mid with
    | nil => exact ((hf a).empty hb).elim
    | cons u mid => exact (bind_of_ok (h.ahead ha)).trans ((hf a).ahead hb)

protected theorem get {f g : List Token → Parse β}
    (hf : ∀ ts, Closes more (f ts) (g (ts ++ more))) : Closes more (get >>= f) (get >>= g) :=
  ⟨fun _ _ h => (hf []).empty h, fun ts _ _ h => (hf ts).ahead h⟩

protected theorem map {x y : Parse α} (h : Closes more x y) (f : α → β) :
    Closes more (x >>= fun a => pure (f a)) (y >>= fun a => pure (f a)) where
  empty b rest hx := by
    obtain ⟨a, mid, ha, -⟩ := bind_eq_ok.1 hx
    exact h.empty ha
  ahead ts b rest hx := by
    obtain ⟨a, mid, ha, hb⟩ := bind_eq_ok.1 hx
    obtain ⟨rfl, rfl⟩ := pure_eq_ok.1 hb
    exact bind_of_ok (h.ahead ha)

end Closes

/-! ### Blocks, and the statements that have them -/

section Blocks

variable {d d' : Parse Statement} {b b' : Parse Block} {n m : Nat}

/-- The declarations of a block end with a brace, which is the last token they need. -/
theorem Closes.declarationsWithin (h : Continues more d d') (hn : n ≤ m) :
    Closes more (declarationsWithin d n) (declarationsWithin d' m) := by
  induction n generalizing m with
  | zero => exact ⟨fun _ _ => throw_ne_ok, fun _ _ _ h => absurd h throw_ne_ok⟩
  | succ n ih =>
    obtain ⟨m, rfl⟩ : ∃ k, m = k + 1 := ⟨m - 1, by omega⟩
    refine ⟨fun _ _ h => (by cases h), fun ts ss rest hs => ?_⟩
    rw [Parse.declarationsWithin, bind_eq_ok] at hs
    obtain ⟨t, _, hp, hs⟩ := hs
    obtain ⟨us, rfl, rfl⟩ := peek_eq_ok hp
    rw [List.cons_append, Parse.declarationsWithin, bind_of_ok (peek_cons _ _)]
    split_ifs at hs ⊢
    · rw [bind_of_ok (skip_cons t us)] at hs
      obtain ⟨rfl, rfl⟩ := pure_eq_ok.1 hs
      rfl
    · exact absurd hs throw_ne_ok
    · exact (Closes.bind h fun first => (ih (Nat.le_of_succ_le_succ hn)).map _).ahead hs

theorem Closes.blockOf (h : Continues more d d') : Closes more (blockOf d) (blockOf d') := by
  refine .bind .peek fun t => .bind (.accept _) fun _ => .bind (.expect _ _) fun _ =>
    .get fun ts => (Closes.declarationsWithin h ?_).map _
  simp

namespace Continues

theorem choiceWithin (h : Continues more b b') (hn : n ≤ m) (pos : Position) :
    Continues more (choiceWithin b n pos) (choiceWithin b' m pos) := by
  induction n generalizing m pos with
  | zero => exact .throw _ _
  | succ n ih =>
    obtain ⟨m, rfl⟩ : ∃ k, m = k + 1 := ⟨m - 1, by omega⟩
    have ih := ih (Nat.le_of_succ_le_succ hn)
    refine .bind .expression fun condition => .bind h fun whenTrue => .bind .peek fun next => ?_
    split
    · exact .bind .skip fun _ => .bind (ih _) fun other => .pure _
    · exact .bind .skip fun _ => .bind h fun whenFalse => .pure _
    · exact .pure _

/-- The search for a parenthesis looks further than other rules. Clauses that are read
    without parentheses are not mistaken for others, whatever follows. -/
theorem loop (h : Continues more b b') (pos : Position) :
    Continues more (loop b pos) (loop b' pos) where
  empty s rest hs := by
    rw [loop_of_bare rfl] at hs
    exact (Continues.clauses.bind fun c => h.bind fun body => .pure _).empty hs
  ahead ts s t rest hs := by
    cases hp : clausesInParentheses ts with
    | false =>
      rw [loop_of_bare hp] at hs
      have hb : clausesInParentheses (ts ++ more) = false := by
        obtain ⟨c, mid, hc, -⟩ := bind_eq_ok.1 hs
        obtain ⟨us, rfl, hd⟩ := clauses_reads hc
        rw [List.append_assoc]
        exact hd.not_inParentheses
      rw [loop_of_bare hb]
      exact (Continues.clauses.bind fun c => h.bind fun body => .pure _).ahead hs
    | true =>
      rw [loop_of_parentheses hp] at hs
      rw [loop_of_parentheses (clausesInParentheses_append hp)]
      exact (Continues.skip.bind fun _ => .bind .clauses fun c => .bind (.expect _ _) fun _ =>
        h.bind fun body => .pure _).ahead hs

theorem statementOf (h : Continues more d d') :
    Continues more (statementOf d) (statementOf d') := by
  have hb := (Closes.blockOf h).continues
  refine .bind .peek fun t => ?_
  split
  · exact .bind .skip fun _ => .bind (.expect _ _) fun _ => .bind .expression fun _ => .pure _
  · exact .bind .skip fun _ => .bind (.expect _ _) fun _ => .bind .names fun _ => .pure _
  · exact .bind .skip fun _ => .get fun ts => hb.choiceWithin (by simp) _
  · exact .bind .skip fun _ => hb.loop _
  · exact .bind hb fun _ => .pure _
  · exact .bind hb fun _ => .pure _
  · exact .typed
  · exact .computation

theorem declarationWithin (hn : n ≤ m) :
    Continues more (declarationWithin n) (declarationWithin m) := by
  induction n generalizing m with
  | zero => exact .throw _ _
  | succ n ih =>
    obtain ⟨m, rfl⟩ : ∃ k, m = k + 1 := ⟨m - 1, by omega⟩
    refine .resuming (.bind (.accept _) fun r => ?_)
    split_ifs
    · exact .typed
    · exact (ih (Nat.le_of_succ_le_succ hn)).statementOf

end Continues

/-- A block is read in the same way whatever follows it. -/
theorem block_append {body : Block} (h : block ts = .ok body rest) (more : List Token) :
    block (ts ++ more) = .ok body (rest ++ more) := by
  refine (Closes.get fun ts => Closes.blockOf (Continues.declarationWithin ?_)).ahead h
  simp

end Blocks

end Parse

end Tudlo
