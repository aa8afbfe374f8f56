import Tudlo.Proofs.Grammar.Location
import Tudlo.Proofs.Grammar.Sequels

/-!
# No limit is ever reached

A rule that repeats something, or that contains itself, has a limit on how often it does so.
Each round consumes a token. So a limit of as many rounds as there are tokens is never what
stops a rule, and all larger ones come to the same, whether the rule succeeds or fails
(`Parse.Ample`). Without any limit the rules would do the same again, and come to an end.

In `Tudlo.Proofs.Grammar.Loops` more rounds keep what is read, for all tokens. Here failures
count as well, and therefore the number of tokens does: two rules agree on less than `n`
tokens (`Parse.AgreeWithin`), and what is inside parentheses or braces is given less tokens
than what is around them.

* `Parse.Unlimited`: all limits of the grammar;
* `Parse.unlimited`: none of them is ever reached.
-/

namespace Tudlo

namespace Parse

variable {α β : Type} {ts rest : List Token} {n : Nat}

/-- All limits that are not smaller than the number of tokens come to the same. -/
def Ample (rule : Nat → Parse α) : Prop :=
  ∀ ⦃n k ts⦄, ts.length ≤ n → ts.length ≤ k → rule n ts = rule k ts

/-- The two rules do the same with the tokens `ts`. -/
def AgreeAt (ts : List Token) (x y : Parse α) : Prop :=
  x ts = y ts

/-- The two rules do the same with less than `n` tokens. -/
def AgreeWithin (n : Nat) (x y : Parse α) : Prop :=
  ∀ ⦃ts⦄, ts.length < n → AgreeAt ts x y

namespace AgreeAt

protected theorem refl (x : Parse α) : AgreeAt ts x x :=
  rfl

/-- Two steps agree when the first ones do, and the second ones on what is left then. -/
protected theorem bind {x y : Parse α} {f g : α → Parse β} (h : AgreeAt ts x y)
    (hf : ∀ a rest, y ts = .ok a rest → AgreeAt rest (f a) (g a)) :
    AgreeAt ts (x >>= f) (y >>= g) := by
  rw [AgreeAt] at h ⊢
  cases hy : y ts with
  | ok a rest => rw [bind_of_ok (h.trans hy), bind_of_ok hy, hf a rest hy]
  | error e rest => rw [bind_of_error (h.trans hy), bind_of_error hy]

/-- Rules that go on with others on less tokens. -/
protected theorem of_eq {x y x' y' : Parse α} (hx : x ts = x' rest) (hy : y ts = y' rest)
    (h : AgreeAt rest x' y') : AgreeAt ts x y :=
  hx.trans (h.trans hy.symm)

/-- What comes after looking at a token. -/
protected theorem peek {f g : Token → Parse β}
    (hf : ∀ t us, ts = t :: us → AgreeAt (t :: us) (f t) (g t)) :
    AgreeAt ts (peek >>= f) (peek >>= g) := by
  refine .bind (.refl _) fun t _ hp => ?_
  obtain ⟨us, rfl, rfl⟩ := peek_eq_ok hp
  exact hf t us rfl

/-- What comes after looking at all tokens that are left. -/
protected theorem get {f g : List Token → Parse β} (hf : AgreeAt ts (f ts) (g ts)) :
    AgreeAt ts (get >>= f) (get >>= g) := by
  refine .bind (.refl _) fun _ _ hg => ?_
  obtain ⟨rfl, rfl⟩ := get_eq_ok.1 hg
  exact hf

/-- What comes after consuming a token. -/
protected theorem skip {t : Token} {f g : Unit → Parse β} (hf : AgreeAt ts (f ()) (g ())) :
    AgreeAt (t :: ts) (skip >>= f) (skip >>= g) := by
  refine .bind (.refl _) fun _ us hs => ?_
  obtain rfl := skip_eq_ok hs
  exact hf

protected theorem resuming {x y : Parse α} (h : AgreeAt ts x y) :
    AgreeAt ts (resuming x) (resuming y) := by
  rw [AgreeAt, Parse.resuming, Parse.resuming, h]

end AgreeAt

/-- What a rule reads is a stretch of the tokens, whatever else is known of it. -/
theorem Reads.stretches {rule : Parse α} {D : List Token → α → Prop} (h : Reads rule D) :
    Reads rule fun _ _ => True := by
  intro ts a rest hr
  obtain ⟨us, hu, -⟩ := h hr
  exact ⟨us, hu, trivial⟩

/-! ### Expressions -/

section Expressions

variable {x y : Parse Expr} {operator? : TokenKind → Option BinaryOp}

/-- An expression in parentheses is given less tokens. -/
protected theorem AgreeWithin.primary (h : AgreeWithin n x y) :
    AgreeWithin (n + 1) (primary x) (primary y) := by
  intro ts hn
  refine .peek fun t us hts => ?_
  subst hts
  split
  · exact .refl _
  · exact .refl _
  · exact .skip (.bind (h (Nat.lt_of_succ_lt_succ hn)) fun _ _ _ => .refl _)
  · exact .refl _

protected theorem AgreeWithin.unary (h : AgreeWithin n x y) :
    AgreeWithin n (unary x) (unary y) := by
  intro ts hn
  induction ts with
  | nil => exact h hn
  | cons t ts ih =>
    cases hop : unaryOperator? t.kind with
    | none =>
      have ht : NextIsNot (fun k => unaryOperator? k ≠ none) (t :: ts) :=
        nextIsNot_cons.2 (not_not.2 hop)
      exact .of_eq (unary_of_nextIsNot ht) (unary_of_nextIsNot ht) (h hn)
    | some op =>
      refine .of_eq (unary_of_some hop) (unary_of_some hop) ?_
      exact .bind (ih (Nat.lt_of_succ_lt hn)) fun _ _ _ => .refl _

/-- Every operation of a chain consumes its operator, so as many rounds as there are tokens
    are enough. -/
theorem chainFrom_agree (h : AgreeWithin n x y) (hr : Reads y fun _ _ => True)
    {budget budget' : Nat} (left : Expr) (hn : ts.length < n) (hb : ts.length ≤ budget)
    (hb' : ts.length ≤ budget') :
    AgreeAt ts (chainFrom operator? x budget left) (chainFrom operator? y budget' left) := by
  induction budget generalizing budget' left ts with
  | zero =>
    obtain rfl := List.eq_nil_of_length_eq_zero (Nat.le_zero.1 hb)
    rw [AgreeAt, chainFrom_of_nextIsNot _ _ (nextIsNot_nil _),
      chainFrom_of_nextIsNot _ _ (nextIsNot_nil _)]
  | succ budget ih =>
    by_cases hk : NextIsNot (fun k => operator? k ≠ none) ts
    · rw [AgreeAt, chainFrom_of_nextIsNot _ _ hk, chainFrom_of_nextIsNot _ _ hk]
    · rcases ts with _ | ⟨t, us⟩
      · exact absurd (nextIsNot_nil _) hk
      · rw [nextIsNot_cons, not_not] at hk
        obtain ⟨op, hop⟩ := Option.ne_none_iff_exists'.1 hk
        rw [List.length_cons] at hn hb hb'
        obtain ⟨k, rfl⟩ : ∃ k, budget' = k + 1 := ⟨budget' - 1, by omega⟩
        refine .of_eq (chainFrom_of_some hop) (chainFrom_of_some hop) ?_
        refine .bind (h (by omega)) fun right vs hv => ?_
        have := hr.length_le hv
        exact ih _ (by omega) (by omega) (by omega)

protected theorem AgreeWithin.chain (h : AgreeWithin n x y) (hr : Reads y fun _ _ => True) :
    AgreeWithin n (chain operator? x) (chain operator? y) := by
  intro ts hn
  refine .bind (h hn) fun first us hu => ?_
  have := hr.length_le hu
  exact .get (chainFrom_agree h hr first (by omega) (Nat.le_refl _) (Nat.le_refl _))

protected theorem AgreeWithin.operations (h : AgreeWithin n x y) (hr : Reads y fun _ _ => True)
    (levels : List Level) : AgreeWithin n (operations levels x) (operations levels y) := by
  induction levels with
  | nil => exact h
  | cons level levels ih => exact ih.chain (nextIsNot_of_operations hr levels).1

/-- The right side of an assignment is given less tokens, too. -/
protected theorem AgreeWithin.assignment (h : AgreeWithin n x y)
    (hr : Reads y Rule.expression.Derives) :
    AgreeWithin (n + 1) (assignment x) (assignment y) := by
  intro ts hn
  have hu := (unary_reads (primary_reads hr)).stretches
  refine .bind (h.primary.unary.operations hu Level.all hn) fun target us ht => ?_
  have hl := (nextIsNot_of_operations hu Level.all).1.length_le ht
  refine .bind (.refl _) fun r vs ha => ?_
  rcases accept_eq_ok ha with ⟨sign, rfl, -, rfl⟩ | ⟨rfl, rfl, -⟩
  · rw [List.length_cons] at hl
    exact .bind (h (by omega)) fun _ _ _ => .refl _
  · exact .refl _

theorem assignment_stretches {rounds : Nat} :
    Reads (assignment (expressionWithin rounds)) fun _ _ => True := by
  intro ts e rest h
  have hx := expressionWithin_reads rounds
  obtain ⟨us, hu, -⟩ := assignment_readsJoined hx.1 hx.2 h
  exact ⟨us, hu, trivial⟩

theorem expressionWithin_agree {j k : Nat} (hn : j ≤ n) (hk : j ≤ k) :
    AgreeWithin j (expressionWithin n) (expressionWithin k) := by
  induction j generalizing n k with
  | zero => exact fun _ h => absurd h (Nat.not_lt_zero _)
  | succ j ih =>
    obtain ⟨n, rfl⟩ : ∃ i, n = i + 1 := ⟨n - 1, by omega⟩
    obtain ⟨k, rfl⟩ : ∃ i, k = i + 1 := ⟨k - 1, by omega⟩
    have hx := ih (Nat.le_of_succ_le_succ hn) (Nat.le_of_succ_le_succ hk)
    exact (hx.assignment (expressionWithin_reads k).1).chain assignment_stretches

end Expressions

/-! ### Statements -/

section Statements

variable {d d' : Parse Statement} {b b' : Parse Block}

/-- Every declaration of a block consumes a token. -/
theorem declarationsWithin_agree (h : AgreeWithin n d d') (hc : Consumes d')
    {budget budget' : Nat} (hn : ts.length < n) (hb : ts.length < budget)
    (hb' : ts.length < budget') :
    AgreeAt ts (declarationsWithin d budget) (declarationsWithin d' budget') := by
  induction budget generalizing budget' ts with
  | zero => exact absurd hb (Nat.not_lt_zero _)
  | succ budget ih =>
    obtain ⟨k, rfl⟩ : ∃ k, budget' = k + 1 := ⟨budget' - 1, by omega⟩
    refine .peek fun t us hts => ?_
    subst hts
    split_ifs
    · exact .refl _
    · exact .refl _
    · refine .bind (h hn) fun first vs hv => ?_
      have := hc hv
      exact .bind (ih (by omega) (by omega) (by omega)) fun _ _ _ => .refl _

/-- The declarations of a block are given less tokens than the block. -/
protected theorem AgreeWithin.blockOf (h : AgreeWithin n d d') (hc : Consumes d') :
    AgreeWithin (n + 1) (blockOf d) (blockOf d') := by
  intro ts hn
  refine .peek fun t us hts => .bind (.refl _) fun r vs ha => .bind (.refl _) fun _ ws he => ?_
  subst hts
  have hl := (@locates_accept _ _ (.keyword .pundok) rfl (List.suffix_refl _)).leaves ha
  have hv := hl.length_le
  obtain ⟨o, rfl, -⟩ := expect_eq_ok he
  rw [List.length_cons] at hv
  refine .get (.bind ?_ fun _ _ _ => .refl _)
  exact declarationsWithin_agree h hc (by omega) (Nat.lt_succ_self _) (Nat.lt_succ_self _)

/-- Every further condition comes after a keyword. -/
theorem choiceWithin_agree (h : AgreeWithin n b b') (hr : Reads b' fun _ _ => True)
    {rounds rounds' : Nat} (pos : Position) (hn : ts.length < n) (hb : ts.length < rounds)
    (hb' : ts.length < rounds') :
    AgreeAt ts (choiceWithin b rounds pos) (choiceWithin b' rounds' pos) := by
  induction rounds generalizing rounds' pos ts with
  | zero => exact absurd hb (Nat.not_lt_zero _)
  | succ rounds ih =>
    obtain ⟨k, rfl⟩ : ∃ k, rounds' = k + 1 := ⟨rounds' - 1, by omega⟩
    refine .bind (.refl _) fun condition us hu => ?_
    have hl := expression_reads.length_le hu
    refine .bind (h (by omega)) fun whenTrue vs hv => ?_
    have hl' := hr.length_le hv
    refine .peek fun next ws hvs => ?_
    subst hvs
    rw [List.length_cons] at hl'
    split
    · exact .skip (.bind (ih next.pos (by omega) (by omega) (by omega)) fun _ _ _ => .refl _)
    · exact .skip (.bind (h (by omega)) fun _ _ _ => .refl _)
    · exact .refl _

protected theorem AgreeWithin.loop (h : AgreeWithin n b b') (pos : Position) :
    AgreeWithin n (loop b pos) (loop b' pos) := by
  intro ts hn
  cases hp : clausesInParentheses ts with
  | false =>
    refine .of_eq (loop_of_bare hp) (loop_of_bare hp) (.bind (.refl _) fun clauses us hu => ?_)
    have := clauses_reads.length_le hu
    exact .bind (h (by omega)) fun _ _ _ => .refl _
  | true =>
    refine .of_eq (loop_of_parentheses hp) (loop_of_parentheses hp) ?_
    obtain ⟨o, us, rfl, -⟩ := cons_of_clausesInParentheses hp
    refine .skip (.bind (.refl _) fun clauses vs hv => .bind (.refl _) fun _ ws he => ?_)
    have hl := clauses_reads.length_le hv
    obtain ⟨p, rfl, -⟩ := expect_eq_ok he
    rw [List.length_cons] at hn hl
    exact .bind (h (by omega)) fun _ _ _ => .refl _

protected theorem AgreeWithin.statementOf (h : AgreeWithin n d d')
    (hr : Reads d' fun us s => Phrase.Derives (.declaration s) us) (hc : Consumes d') :
    AgreeWithin (n + 1) (statementOf d) (statementOf d') := by
  intro ts hn
  have hb := h.blockOf hc
  refine .peek fun t us hts => ?_
  subst hts
  have hu : us.length < n + 1 := Nat.lt_of_succ_lt hn
  split
  · exact .refl _
  · exact .refl _
  · refine .skip (.get ?_)
    exact choiceWithin_agree hb (blockOf_reads hr).stretches t.pos hu (Nat.lt_succ_self _)
      (Nat.lt_succ_self _)
  · exact .skip (hb.loop t.pos hu)
  · exact .bind (hb hn) fun _ _ _ => .refl _
  · exact .bind (hb hn) fun _ _ _ => .refl _
  · exact .refl _
  · exact .refl _

theorem declarationWithin_agree {j k : Nat} (hn : j ≤ n) (hk : j ≤ k) :
    AgreeWithin j (declarationWithin n) (declarationWithin k) := by
  induction j generalizing n k with
  | zero => exact fun _ h => absurd h (Nat.not_lt_zero _)
  | succ j ih =>
    obtain ⟨n, rfl⟩ : ∃ i, n = i + 1 := ⟨n - 1, by omega⟩
    obtain ⟨k, rfl⟩ : ∃ i, k = i + 1 := ⟨k - 1, by omega⟩
    have hs := (ih (Nat.le_of_succ_le_succ hn) (Nat.le_of_succ_le_succ hk)).statementOf
      (declarationWithin_reads k) (declarationWithin_consumes k)
    intro ts hts
    refine .resuming (.bind (.refl _) fun r us ha => ?_)
    have hl := (@locates_accept _ _ (.keyword .mugna) rfl (List.suffix_refl _)).leaves ha
    split_ifs
    · exact .refl _
    · exact hs (Nat.lt_of_le_of_lt hl.length_le hts)

end Statements

/-! ### All limits -/

/-- No limit of the grammar is ever reached. Where a limit is counted down to failure, one
    more round is allowed than there are tokens. -/
structure Unlimited : Prop where
  /-- Expressions inside one another. -/
  expressions : Ample fun n => expressionWithin (n + 1)
  /-- The operations of one level. -/
  operations (operator? : TokenKind → Option BinaryOp) (levels : List Level) (left : Expr) :
    Ample fun n => chainFrom operator? (Parse.operations levels (unary (primary expression))) n left
  /-- The assignments with `&` between them. -/
  joins (left : Expr) : Ample fun n => chainFrom joinOperator? (assignment expression) n left
  /-- Declarations inside one another. -/
  declarations : Ample fun n => declarationWithin (n + 1)
  /-- The declarations of a block. -/
  blocks : Ample fun n => declarationsWithin declaration (n + 1)
  /-- The conditions that are asked for one after the other. -/
  choices (pos : Position) : Ample fun n => choiceWithin block (n + 1) pos

theorem unlimited : Unlimited where
  expressions n k ts hn hk := by
    refine expressionWithin_agree ?_ ?_ (Nat.lt_succ_self ts.length)
    · exact Nat.succ_le_succ hn
    · exact Nat.succ_le_succ hk
  operations operator? levels left n k ts hn hk := by
    have hu := (unary_reads (primary_reads expression_reads)).stretches
    exact chainFrom_agree (fun _ _ => .refl _) (nextIsNot_of_operations hu levels).1 left
      (Nat.lt_succ_self _) hn hk
  joins left n k ts hn hk := by
    have ha : Reads (assignment expression) fun _ _ => True := by
      intro ts e rest h
      obtain ⟨us, hu, -⟩ := assignment_readsJoined expression_reads
        (fun {ts _ _} h => (expressionWithin_reads (ts.length + 1)).2 h) h
      exact ⟨us, hu, trivial⟩
    exact chainFrom_agree (fun _ _ => .refl _) ha left (Nat.lt_succ_self _) hn hk
  declarations n k ts hn hk := by
    refine declarationWithin_agree ?_ ?_ (Nat.lt_succ_self ts.length)
    · exact Nat.succ_le_succ hn
    · exact Nat.succ_le_succ hk
  blocks n k ts hn hk := by
    refine declarationsWithin_agree (fun _ _ => .refl _) (fun _ _ _ h => ?_) (Nat.lt_succ_self _)
      (Nat.lt_succ_of_le hn) (Nat.lt_succ_of_le hk)
    exact length_lt_of_declaration h
  choices pos n k ts hn hk := by
    have hb : Reads block fun us b => Phrase.Derives (.block b) us :=
      fun ts _ _ h => blockOf_reads (declarationWithin_reads (ts.length + 1)) h
    exact choiceWithin_agree (fun _ _ => .refl _) hb.stretches pos (Nat.lt_succ_self _)
      (Nat.lt_succ_of_le hn) (Nat.lt_succ_of_le hk)

end Parse

end Tudlo
