import Tudlo.Proofs.Grammar.Completeness.Statement

/-!
# The headers of loops

A loop has three clauses with commas between them, and commas also stand between the names
of a declaration. So there are two ways to go on after the names of a first clause that
declares them without a value, and the rule for names always takes the comma for itself.
The clauses that it loses this way it cannot get back: whatever the condition is, one
comma will be missing in the end (`Parse.clauses_refuses`). All other headers are read as
they are derived, with or without parentheses.

The block of a loop is read with more rounds than it has when it stands alone. A rule that
succeeds does the same with more rounds (`Parse.declarationWithin_extends`).

* `Parse.statement_of_header`: a loop is read if and only if its first clause does not
  declare names without a value.
-/

namespace Tudlo

namespace Parse

variable {α β : Type} {ts us vs rest : List Token} {t : Token}

/-- A rule that consumes all tokens reads the whole of them. -/
theorem Reads.whole {rule : Parse α} {D : List Token → α → Prop} (h : Reads rule D) {a : α}
    (hr : rule ts = .ok a []) : D ts a := by
  obtain ⟨us, rfl, hd⟩ := h hr
  rwa [List.append_nil]

/-! ### More rounds -/

/-- The second rule reads all that the first one reads, in the same way. -/
def Extends (x y : Parse α) : Prop :=
  ∀ ⦃ts a rest⦄, x ts = .ok a rest → y ts = .ok a rest

namespace Extends

protected theorem refl (x : Parse α) : Extends x x :=
  fun _ _ _ h => h

protected theorem bind {x y : Parse α} {f g : α → Parse β} (h : Extends x y)
    (hf : ∀ a, Extends (f a) (g a)) : Extends (x >>= f) (y >>= g) := by
  intro ts b rest hx
  obtain ⟨a, mid, ha, hb⟩ := bind_eq_ok.1 hx
  exact (bind_of_ok (h ha)).trans (hf a hb)

protected theorem resuming {x y : Parse α} (h : Extends x y) :
    Extends (resuming x) (resuming y) :=
  fun _ _ _ hx => resuming_eq_ok.2 (h (resuming_eq_ok.1 hx))

variable {d d' : Parse Statement} (h : Extends d d')

include h

protected theorem declarationsWithin (budget : Nat) :
    Extends (declarationsWithin d budget) (declarationsWithin d' budget) := by
  induction budget with
  | zero => exact .refl _
  | succ budget ih =>
    refine .bind (.refl _) fun t => ?_
    split_ifs
    · exact .refl _
    · exact .refl _
    · exact .bind h fun first => .bind ih fun others => .refl _

protected theorem blockOf : Extends (blockOf d) (blockOf d') :=
  .bind (.refl _) fun _ => .bind (.refl _) fun _ => .bind (.refl _) fun _ =>
    .bind (.refl _) fun _ => .bind (h.declarationsWithin _) fun _ => .refl _

omit h in
protected theorem choiceWithin {b b' : Parse Block} (h : Extends b b') (rounds : Nat)
    (pos : Position) : Extends (choiceWithin b rounds pos) (choiceWithin b' rounds pos) := by
  induction rounds generalizing pos with
  | zero => exact .refl _
  | succ rounds ih =>
    refine .bind (.refl _) fun condition => .bind h fun whenTrue => .bind (.refl _) fun next => ?_
    split
    · exact .bind (.refl _) fun _ => .bind (ih _) fun other => .refl _
    · exact .bind (.refl _) fun _ => .bind h fun whenFalse => .refl _
    · exact .refl _

omit h in
protected theorem loop {b b' : Parse Block} (h : Extends b b') (pos : Position) :
    Extends (loop b pos) (loop b' pos) := by
  intro ts s rest hs
  cases hp : clausesInParentheses ts with
  | false =>
    rw [loop_of_bare hp] at hs ⊢
    exact Extends.bind (.refl _) (fun c => .bind h fun body => .refl _) hs
  | true =>
    rw [loop_of_parentheses hp] at hs ⊢
    exact Extends.bind (.refl _) (fun _ => .bind (.refl _) fun c => .bind (.refl _) fun _ =>
      .bind h fun body => .refl _) hs

protected theorem statementOf : Extends (statementOf d) (statementOf d') := by
  refine .bind (.refl _) fun t => ?_
  split
  · exact .refl _
  · exact .refl _
  · exact .bind (.refl _) fun _ => .bind (.refl _) fun _ => h.blockOf.choiceWithin _ _
  · exact .bind (.refl _) fun _ => h.blockOf.loop _
  · exact .bind h.blockOf fun _ => .refl _
  · exact .bind h.blockOf fun _ => .refl _
  · exact .refl _
  · exact .refl _

end Extends

/-- A declaration that is read is read in the same way with more rounds. -/
theorem declarationWithin_extends {n m : Nat} (h : n ≤ m) :
    Extends (declarationWithin n) (declarationWithin m) := by
  induction n generalizing m with
  | zero => exact fun _ _ _ h => absurd h throw_ne_ok
  | succ n ih =>
    obtain ⟨k, rfl⟩ := Nat.exists_eq_add_of_le h
    rw [Nat.add_right_comm]
    refine .resuming (.bind (.refl _) fun r => ?_)
    split_ifs
    · exact .refl _
    · exact (ih (Nat.le_add_right n k)).statementOf

/-- The block of a loop is read as when it stands alone. -/
theorem blockOf_of_block {n : Nat} {body : Block} (h : block ts = .ok body rest)
    (hn : ts.length < n) : blockOf (declarationWithin n) ts = .ok body rest := by
  rw [block, bind_of_ok (get_eq_ok.2 ⟨rfl, rfl⟩)] at h
  exact (declarationWithin_extends hn).blockOf h

/-- What a block begins with. -/
theorem cons_of_block {body : Block} (h : block (us ++ rest) = .ok body rest) :
    ∃ u vs, us = u :: vs ∧ u.kind.OpensBlock := by
  rw [block, bind_of_ok (get_eq_ok.2 ⟨rfl, rfl⟩)] at h
  obtain ⟨vs, hv, hd⟩ := blockOf_reads (declarationWithin_reads _) h
  obtain rfl := List.append_cancel_right hv
  cases hd with
  | braces ho _ _ => exact ⟨_, _, rfl, .inl ho⟩
  | marked hp _ _ _ => exact ⟨_, _, rfl, .inr hp⟩

end Parse

open Parse

variable {ts us vs rest : List Token} {t c : Token}

theorem boundary_of_opensBlock (h : t.kind.OpensBlock) : Boundary (t :: ts) := by
  refine boundary_cons ?_
  rcases h with h | h <;> rw [h] <;> rfl

/-! ### How an expression begins -/

/-- How an expression goes on after its first token, if that is a name. Only some
    expressions are assignments. -/
inductive Beginning : (assigns : Bool) → List Token → Prop
  | other {assigns : Bool} {t : Token} {ts : List Token} (hk : ∀ s, t.kind ≠ .name s) :
      Beginning assigns (t :: ts)
  | name {assigns : Bool} {t : Token} {s : String} (hk : t.kind = .name s) :
      Beginning assigns [t]
  | operator {assigns : Bool} {t q : Token} {ts : List Token} {s : String}
      (hk : t.kind = .name s) (hc : q.kind ≠ .symbol .comma) (hq : q.kind ≠ .symbol .assign) :
      Beginning assigns (t :: q :: ts)
  | assign {t q : Token} {ts : List Token} {s : String} {e : Expr} (hk : t.kind = .name s)
      (hq : q.kind = .symbol .assign) (he : Rule.expression.Derives ts e) :
      Beginning true (t :: q :: ts)

namespace Beginning

variable {assigns : Bool}

theorem mono (h : Beginning false ts) : Beginning assigns ts := by
  cases h with
  | other hk => exact .other hk
  | name hk => exact .name hk
  | operator hk hc hq => exact .operator hk hc hq

/-- An operator can follow. -/
theorem append (h : Beginning false ts) (hc : t.kind ≠ .symbol .comma)
    (hq : t.kind ≠ .symbol .assign) : Beginning assigns (ts ++ t :: us) := by
  cases h with
  | other hk => exact .other hk
  | name hk => exact .operator hk hc hq
  | operator hk hc hq => exact .operator hk hc hq

/-- An equals sign can follow. -/
theorem append_assign {e : Expr} (h : Beginning false ts) (hq : t.kind = .symbol .assign)
    (he : Rule.expression.Derives us e) : Beginning true (ts ++ t :: us) := by
  cases h with
  | other hk => exact .other hk
  | name hk => exact .assign hk hq he
  | operator hk hc hq => exact .operator hk hc hq

end Beginning

/-- Whether the rule derives assignments without parentheses. -/
def Rule.assigns : Rule → Bool
  | .expression => true
  | .assignment => true
  | _ => false

theorem BinaryOp.token_ne_comma (op : BinaryOp) : op.token ≠ .symbol .comma := by
  cases op <;> exact fun h => by cases h

theorem BinaryOp.token_ne_assign (op : BinaryOp) : op.token ≠ .symbol .assign := by
  cases op <;> exact fun h => by cases h

theorem Rule.Derives.beginning {r : Rule} {e : Expr} (h : r.Derives ts e) :
    Beginning r.assigns ts := by
  induction h with
  | literal hk => exact .other fun s h => by cases hk.symm.trans h
  | name hk => exact .name hk
  | parentheses ho _ _ _ => exact .other fun s h => by cases ho.symm.trans h
  | primary _ ih => exact ih
  | @unary op t ts e hk _ _ =>
    refine .other fun s h => ?_
    cases op <;> cases hk.symm.trans h
  | @operand l ts e _ ih => cases l <;> exact ih
  | @operation op l t ts us e d _ _ hk _ ih _ =>
    exact ih.append (hk ▸ op.token_ne_comma) (hk ▸ op.token_ne_assign)
  | value _ ih => exact ih.mono
  | assign _ hk he ih _ => exact ih.append_assign hk he
  | first _ ih => exact ih
  | next _ hk _ ih _ =>
    exact ih.append (hk ▸ BinaryOp.join.token_ne_comma) (hk ▸ BinaryOp.join.token_ne_assign)
  | single _ ih => exact ih
  | last _ hk _ ih _ =>
    exact ih.append (hk ▸ BinaryOp.join.token_ne_comma) (hk ▸ BinaryOp.join.token_ne_assign)

/-! ### Names that take too much -/

/-- Names can go on after a comma. -/
theorem NamesDerive.append {ss : List String} {s : String} (h : NamesDerive ts ss)
    (hc : c.kind = .symbol .comma) (hk : t.kind = .name s) :
    NamesDerive (ts ++ [c, t]) (ss ++ [s]) := by
  induction h with
  | last ht => exact .more ht hc (.last hk)
  | more ht hc' _ ih => exact .more ht hc' ih

namespace Parse

variable {α β : Type} {type : ScalarType} {ss : List String} {e : Expr}

/-- The rule does not succeed. -/
def Refuses (rule : Parse α) (ts : List Token) : Prop :=
  ∃ e left, rule ts = .error e left

theorem Refuses.bind {x : Parse α} {f : α → Parse β} (h : Refuses x ts) :
    Refuses (x >>= f) ts := by
  obtain ⟨e, left, h⟩ := h
  exact ⟨e, left, bind_of_error h⟩

theorem Refuses.of_ok {x : Parse α} {f : α → Parse β} {a : α} {mid : List Token}
    (hx : x ts = .ok a mid) (h : Refuses (f a) mid) : Refuses (x >>= f) ts := by
  obtain ⟨e, left, h⟩ := h
  exact ⟨e, left, (bind_of_ok hx).trans h⟩

theorem refuses_expect {kind : TokenKind} {expected : Expectation} (h : t.kind ≠ kind) :
    Refuses (expect kind expected) (t :: ts) :=
  ⟨_, _, expect_of_ne h⟩

/-- Before a token that separates there is no comma. -/
theorem refuses_comma {expected : Expectation} (h : Boundary rest) :
    Refuses (expect (.symbol .comma) expected) rest := by
  obtain ⟨t, us, rfl, -⟩ := id h
  exact refuses_expect (nextIsNot_cons.1 h.nextIsNot_comma)

/-- After a comma has to come a name. -/
theorem refuses_names (hn : NamesDerive ts ss) (hc : c.kind = .symbol .comma)
    (ht : ∀ s, t.kind ≠ .name s) : Refuses names (ts ++ c :: t :: rest) := by
  induction hn with
  | last hk =>
    rw [List.singleton_append]
    exact ⟨_, _, (names_of_comma hk hc).trans (bind_of_error (names_of_ne ht))⟩
  | more hk hc' _ ih =>
    obtain ⟨e, left, he⟩ := ih
    exact ⟨e, left, (names_of_comma hk hc').trans (bind_of_error he)⟩

theorem bind_of_eq {x y : Parse α} {f : α → Parse β} (h : x ts = y us) :
    (x >>= f) ts = (y >>= f) us := by
  show EStateM.bind x f ts = EStateM.bind y f us
  rw [EStateM.bind, EStateM.bind, h]

/-- A first clause after its keyword, with the comma that ends it. -/
def announced : Parse Statement := do
  let initial ← typed
  expect (.symbol .comma) .commaAfterInitial
  return initial

theorem refuses_announced (ht : t.kind = .keyword (.scalar type)) (h : Refuses names ts) :
    Refuses announced (t :: ts) := by
  obtain ⟨e, left, h⟩ := h
  have hx : typed (t :: ts) = .error e left := by
    rw [typed_of_scalar ht]
    exact bind_of_error h
  exact Refuses.bind ⟨e, left, hx⟩

/-- What becomes of an expression that comes after names and a comma. It is refused, or it
    is a name like those before, or it becomes the last name and the value of all. -/
theorem announced_cases (ht : t.kind = .keyword (.scalar type)) (hn : NamesDerive ts ss)
    (hc : c.kind = .symbol .comma) (he : Rule.expression.Derives us e)
    (hs : Rule.expression.Stops rest) :
    Refuses announced (t :: (ts ++ c :: (us ++ rest))) ∨
    (∃ u s, us = [u] ∧ u.kind = .name s) ∨
    ∃ s, typed (t :: (ts ++ c :: (us ++ rest))) = .ok s rest := by
  -- The rule for names looks at the first token only, and at the one after a name.
  cases he.beginning with
  | other hk => exact .inl (refuses_announced ht (refuses_names hn hc hk))
  | name hk => exact .inr (.inl ⟨_, _, rfl, hk⟩)
  | @operator _ u q vs s hk hqc hqa =>
    have hx : typed (t :: (ts ++ [c, u]) ++ q :: (vs ++ rest)) = .ok _ (q :: (vs ++ rest)) :=
      typed_of_bare ht (hn.append hc hk) (nextIsNot_cons.2 hqc) (nextIsNot_cons.2 hqa)
    rw [List.cons_append, List.append_assoc] at hx
    exact .inl (.of_ok hx (refuses_expect hqc).bind)
  | @assign u q vs s d hk hq hd =>
    have hx := typed_of_initialised ht (hn.append hc hk) hq hd hs
    rw [List.cons_append, List.append_assoc, List.append_assoc] at hx
    exact .inr (.inr ⟨_, hx⟩)

/-- If it is the last clause there is no comma after it. -/
theorem refuses_of_computed (ht : t.kind = .keyword (.scalar type)) (hn : NamesDerive ts ss)
    (hc : c.kind = .symbol .comma) (he : Rule.expression.Derives us e) (hb : Boundary rest) :
    Refuses announced (t :: (ts ++ c :: (us ++ rest))) := by
  rcases announced_cases ht hn hc he hb.stops with h | ⟨u, s, rfl, hk⟩ | ⟨s, hx⟩
  · exact h
  · have hx := typed_of_bare ht (hn.append hc hk) hb.nextIsNot_comma hb.stops.2
    rw [List.cons_append, List.append_assoc] at hx
    exact .of_ok hx (refuses_comma hb).bind
  · exact .of_ok hx (refuses_comma hb).bind

/-- No expression begins with the keyword for declarations. -/
theorem refuses_expression (hk : t.kind = .keyword .mugna) : Refuses expression (t :: ts) := by
  cases h : expression (t :: ts) with
  | error e left => exact ⟨e, left, h⟩
  | ok e left =>
    obtain ⟨us, hu, hd⟩ := expression_reads h
    obtain ⟨u, vs, rfl, hb⟩ := hd.head
    obtain ⟨rfl, -⟩ := List.cons.inj hu
    rw [hk] at hb
    cases hb

/-- Clauses after the keyword of the first one. -/
def announcedClauses : Parse (Statement × Expr × Statement) := do
  let initial ← announced
  let condition ← expression
  expect (.symbol .comma) .commaAfterCondition
  let step ← clause
  return (initial, condition, step)

theorem clause_of_mugna (hk : t.kind = .keyword .mugna) : clause (t :: ts) = typed ts := by
  rw [clause, bind_of_ok (accept_of_eq hk)]
  rfl

theorem clauses_of_mugna (hk : t.kind = .keyword .mugna) :
    clauses (t :: ts) = announcedClauses ts := by
  simp only [announcedClauses, announced, bind_assoc, pure_bind]
  exact bind_of_eq (clause_of_mugna hk)

/-- After names without a value the clauses are refused, whatever the others are. -/
theorem refuses_announcedClauses {c' : Token} {step : Statement}
    (ht : t.kind = .keyword (.scalar type)) (hn : NamesDerive ts ss) (hc : c.kind = .symbol .comma)
    (he : Rule.expression.Derives us e) (hc' : c'.kind = .symbol .comma)
    (hs : ClauseDerives vs step) (hb : Boundary rest) :
    Refuses announcedClauses (t :: (ts ++ c :: (us ++ c' :: (vs ++ rest)))) := by
  rcases announced_cases ht hn hc he (stops_comma hc') with h | ⟨u, s, rfl, hk⟩ | ⟨s, hx⟩
  · exact h.bind
  · -- The condition is taken for a name, and the last clause comes in its place.
    have hl : ts ++ c :: ([u] ++ c' :: (vs ++ rest)) = (ts ++ [c, u]) ++ c' :: (vs ++ rest) := by
      simp
    rw [hl]
    have hn' := hn.append hc hk
    cases hs with
    | declared hm _ =>
      refine (refuses_announced ht (refuses_names hn' hc' ?_)).bind
      exact fun s h => by cases hm.symm.trans h
    | computed hd => exact (refuses_of_computed ht hn' hc' hd hb).bind
  · -- The condition is taken for the value, and the last clause for the condition.
    refine .of_ok (bind_of_ok hx |>.trans (bind_of_ok (expect_of_eq hc'))) ?_
    cases hs with
    | declared hm _ => exact (refuses_expression hm).bind
    | computed hd => exact .of_ok (expression_of_derives hd hb.stops) (refuses_comma hb).bind

/-- Clauses of which the first one declares names without a value are not read: the names
    take the comma after them. -/
theorem clauses_refuses {initial step : Statement} {condition : Expr}
    (h : ClausesDerive ts initial condition step) (hi : initial.endsBeforeComma = false)
    (hb : Boundary rest) : Refuses clauses (ts ++ rest) := by
  obtain ⟨hdi, hc, hde, hc', hds⟩ := h
  cases hdi with
  | computed he => cases hi
  | declared hm hd =>
    cases hd with
    | initialised => cases hi
    | bare ht hn =>
      have hr := refuses_announcedClauses ht hn hc hde hc' hds hb
      rw [Refuses, ← clauses_of_mugna hm] at hr
      simpa [Refuses] using hr

end Parse

/-! ### Headers -/

/-- The stretch of tokens is the clauses of a loop, with or without parentheses around
    them. -/
inductive HeaderDerives : List Token → Statement → Expr → Statement → Prop
  | bare {ts : List Token} {initial step : Statement} {condition : Expr}
      (h : ClausesDerive ts initial condition step) : HeaderDerives ts initial condition step
  | inParentheses {o p : Token} {ts : List Token} {initial step : Statement} {condition : Expr}
      (ho : o.kind = .symbol .openParen) (h : ClausesDerive ts initial condition step)
      (hp : p.kind = .symbol .closeParen) :
      HeaderDerives (o :: (ts ++ [p])) initial condition step

namespace Parse

variable {initial step : Statement} {condition : Expr} {body : Block} {pos : Position}

/-- A loop is read after its clauses and its block. -/
theorem loop_of_header {b : Parse Block} (hh : HeaderDerives ts initial condition step)
    (hi : initial.endsBeforeComma = true) (hu : t.kind.OpensBlock)
    (hb : b (t :: us) = .ok body rest) :
    loop b pos (ts ++ t :: us) = .ok (.loop initial condition step body pos) rest := by
  cases hh with
  | bare h =>
    rw [loop_of_bare h.not_inParentheses,
      bind_of_ok (clauses_of_derives h hi (boundary_of_opensBlock hu))]
    exact (bind_of_ok hb).trans rfl
  | @inParentheses o p ts _ _ _ ho h hp =>
    rw [List.cons_append, List.append_assoc, List.singleton_append,
      loop_of_parentheses (clausesInParentheses_eq_true ho h.passes hp hu),
      bind_of_ok (skip_cons _ _),
      bind_of_ok (clauses_of_derives h hi (boundary_cons (by rw [hp]; rfl)))]
    dsimp only
    rw [bind_of_ok (expect_of_eq hp)]
    exact (bind_of_ok hb).trans rfl

/-- A loop is refused when its clauses are. -/
theorem refuses_loop {b : Parse Block} (hh : HeaderDerives ts initial condition step)
    (hi : initial.endsBeforeComma = false) (hu : t.kind.OpensBlock) :
    Refuses (loop b pos) (ts ++ t :: us) := by
  cases hh with
  | bare h =>
    rw [Refuses, loop_of_bare h.not_inParentheses]
    exact (clauses_refuses h hi (boundary_of_opensBlock hu)).bind
  | @inParentheses o p ts _ _ _ ho h hp =>
    rw [List.cons_append, List.append_assoc, List.singleton_append, Refuses,
      loop_of_parentheses (clausesInParentheses_eq_true ho h.passes hp hu)]
    exact Refuses.of_ok (skip_cons _ _) (clauses_refuses h hi (boundary_cons (by rw [hp]; rfl))).bind

theorem statement_of_alangSa (ht : t.kind = .keyword .alangSa) (ts : List Token) :
    statement (t :: ts) =
      loop (blockOf (declarationWithin (ts.length + 2))) t.pos ts := by
  rw [statement, bind_of_ok (get_eq_ok.2 ⟨rfl, rfl⟩), statementOf, bind_of_ok (peek_cons _ _), ht]
  exact bind_of_ok (skip_cons _ _)

/-- A loop with a header that the grammar derives, and with a block that is read, is read as
    it is derived, unless its first clause declares names without a value. Such a loop is
    refused, whatever the rest of it is. -/
theorem statement_of_header (ht : t.kind = .keyword .alangSa)
    (hh : HeaderDerives ts initial condition step) (hb : block (us ++ rest) = .ok body rest) :
    (initial.endsBeforeComma = true →
      statement (t :: (ts ++ (us ++ rest))) =
        .ok (.loop initial condition step body t.pos) rest) ∧
    (initial.endsBeforeComma = false →
      ∃ e left, statement (t :: (ts ++ (us ++ rest))) = .error e left) := by
  -- The token that the block begins with ends the clauses, and decides about parentheses.
  obtain ⟨u, vs, rfl, hu⟩ := cons_of_block hb
  rw [List.cons_append] at hb ⊢
  rw [statement_of_alangSa ht, List.length_append]
  exact ⟨fun hi => loop_of_header hh hi hu (blockOf_of_block hb (by omega)),
    fun hi => refuses_loop hh hi hu⟩

/-- The loop of the counting program, with its clauses in parentheses. -/
theorem statement_of_header_counting :
    ∃ initial condition step body,
      HeaderDerives ((countingTokens.drop 2).take 19) initial condition step ∧
      block ((countingTokens.drop 21).take 7 ++ countingTokens.drop 28) =
        .ok body (countingTokens.drop 28) ∧
      initial.endsBeforeComma = true ∧
      statement (countingTokens.drop 1) =
        .ok (.loop initial condition step body ⟨1, 2⟩) (countingTokens.drop 28) := by
  have hc : clauses ((countingTokens.drop 3).take 17) = .ok _ [] := rfl
  have hb : block ((countingTokens.drop 21).take 7 ++ countingTokens.drop 28) =
      .ok _ (countingTokens.drop 28) := rfl
  have hh := HeaderDerives.inParentheses (o := ⟨.symbol .openParen, "", ⟨1, 3⟩⟩)
    (p := ⟨.symbol .closeParen, "", ⟨1, 21⟩⟩) rfl (clauses_reads.whole hc) rfl
  have hs := (statement_of_header (t := ⟨.keyword .alangSa, "", ⟨1, 2⟩⟩) rfl hh hb).1 rfl
  exact ⟨_, _, _, _, hh, hb, rfl, hs⟩

/-- The tokens of a loop over `i` that does not give it a first value. -/
def valuelessTokens : List Token := inColumns
  [.keyword .alangSa, .keyword .mugna, .keyword (.scalar .integer), .name "i", .symbol .comma,
   .name "i", .symbol .less, .literal (.integer 3), .symbol .comma, .name "i", .symbol .assign,
   .name "i", .symbol .plus, .literal (.integer 1), .symbol .openBrace, .symbol .closeBrace,
   .ending]

/-- The grammar derives the loop, but the condition is read as a second name. -/
theorem refuses_valueless :
    HeaderDerives ((valuelessTokens.drop 1).take 13) (.declare .integer ["i"] none ⟨1, 3⟩)
      (.binary .less (.var "i" ⟨1, 6⟩) (.literal (.integer 3) ⟨1, 8⟩) ⟨1, 7⟩)
      (.compute (.assign "i" (.binary .add (.var "i" ⟨1, 12⟩) (.literal (.integer 1) ⟨1, 14⟩)
        ⟨1, 13⟩) ⟨1, 10⟩) ⟨1, 10⟩) ∧
    block (valuelessTokens.drop 14) = .ok ⟨[], ⟨1, 15⟩⟩ (valuelessTokens.drop 16) ∧
    ∃ found, statement valuelessTokens =
      .error ⟨.tokenExpected .commaAfterInitial found, ⟨1, 7⟩⟩ (valuelessTokens.drop 6) := by
  have hi : clause ((valuelessTokens.drop 1).take 3) = .ok _ [] := rfl
  have hc : expression ((valuelessTokens.drop 5).take 3) = .ok _ [] := rfl
  have hs : clause ((valuelessTokens.drop 9).take 5) = .ok _ [] := rfl
  have h : ClausesDerive ((valuelessTokens.drop 1).take 3 ++ ⟨.symbol .comma, "", ⟨1, 5⟩⟩ ::
      ((valuelessTokens.drop 5).take 3 ++ ⟨.symbol .comma, "", ⟨1, 9⟩⟩ ::
        (valuelessTokens.drop 9).take 5)) _ _ _ :=
    .mk (clause_reads.whole hi) rfl (expression_reads.whole hc) rfl (clause_reads.whole hs)
  exact ⟨.bare h, rfl, _, rfl⟩

end Parse

end Tudlo
