import Tudlo.Proofs.Grammar.Location

/-!
# Nothing is read across a wall

Some keywords never occur inside an expression or a list of names: those that begin a
declaration or an input or output statement, and the one that ends the statements of a
program. Such a token is a *wall*. When a rule for expressions or names is given tokens
before a wall, it stops at the wall at the latest, and what is behind the wall makes no
difference: neither to whether the rule succeeds, nor to its result, nor to the tokens
that it leaves (`Parse.Settled`). Only the error may name the wall.

The rules count their rounds in tokens, so the numbers of rounds do depend on what is
behind the wall. Therefore it is a family of rules that is settled, one for everything
that can follow, and all that is asked of the rounds is that there are enough for the
tokens before the wall.

* `Parse.settled_names`, `Parse.settled_expression`: names and expressions;
* `Parse.settled_typed`: what follows the keyword of a declaration.
-/

namespace Tudlo

/-- Whether a token is a wall for expressions and names. -/
def TokenKind.isWall : TokenKind → Bool
  | .keyword .mugna => true
  | .keyword .ipakita => true
  | .keyword .dawat => true
  | .keyword .katapusan => true
  | _ => false

theorem TokenKind.ne_of_isWall {k k' : TokenKind} (h : k.isWall = true) (h' : k'.isWall = false) :
    k ≠ k' := by
  rintro rfl
  rw [h] at h'
  cases h'

theorem BinaryOp.isWall_token (op : BinaryOp) : op.token.isWall = false := by
  cases op <;> rfl

theorem UnaryOp.isWall_token (op : UnaryOp) : op.token.isWall = false := by
  cases op <;> rfl

namespace Parse

variable {α β : Type} {us vs tail : List Token} {n : Nat}

/-- The tokens begin with a wall. -/
def Walled (tail : List Token) : Prop :=
  ∃ t ts, tail = t :: ts ∧ t.kind.isWall = true

theorem Walled.nextIsNot {sort : TokenKind → Prop} (h : Walled tail)
    (hs : ∀ k, sort k → k.isWall = false) : NextIsNot sort tail := by
  obtain ⟨t, ts, rfl, hw⟩ := h
  rw [nextIsNot_cons]
  intro ht
  rw [hs _ ht] at hw
  cases hw

/-- What the rule does with the tokens `us` is the same before all walls: it succeeds
    with the same result, or it fails, and it leaves the same ones of `us`. The rule
    may depend on what follows. -/
inductive Settled (rule : List Token → Parse α) (us : List Token) : Prop
  | ok {a : α} {vs : List Token} (hs : vs <:+ us)
      (h : ∀ ⦃tail⦄, Walled tail → rule tail (us ++ tail) = .ok a (vs ++ tail))
  | error {vs : List Token} (hs : vs <:+ us)
      (h : ∀ ⦃tail⦄, Walled tail → ∃ e, rule tail (us ++ tail) = .error e (vs ++ tail))

/-- The rule is settled on less than `n` tokens. -/
def SettledWithin (n : Nat) (rule : List Token → Parse α) : Prop :=
  ∀ ⦃us⦄, us.length < n → Settled rule us

/-! ### Steps -/

/-- A rule that goes on with another one on less tokens. -/
theorem Settled.of_eq {x y : List Token → Parse α} (hs : vs <:+ us)
    (h : ∀ tail, Walled tail → x tail (us ++ tail) = y tail (vs ++ tail)) (hy : Settled y vs) :
    Settled x us := by
  rcases hy with ⟨hs', hy⟩ | ⟨hs', hy⟩
  · exact .ok (hs'.trans hs) fun tail ht => (h tail ht).trans (hy ht)
  · exact .error (hs'.trans hs) fun tail ht => (h tail ht) ▸ hy ht

theorem Settled.bind {x : List Token → Parse α} {f : List Token → α → Parse β}
    (hx : Settled x us) (hf : ∀ a vs, vs <:+ us → Settled (fun tail => f tail a) vs) :
    Settled (fun tail => x tail >>= f tail) us := by
  rcases hx with @⟨a, vs, hs, hx⟩ | @⟨vs, hs, hx⟩
  · exact .of_eq hs (fun tail ht => bind_of_ok (hx ht)) (hf a vs hs)
  · refine .error hs fun tail ht => ?_
    obtain ⟨e, he⟩ := hx ht
    exact ⟨e, bind_of_error he⟩

theorem settled_pure (a : α) : Settled (fun _ => (pure a : Parse α)) us :=
  .ok (List.suffix_refl us) fun _ _ => rfl

theorem settled_throw (e : List Token → SyntaxError) :
    Settled (fun tail => (throw (e tail) : Parse α)) us :=
  .error (List.suffix_refl us) fun tail _ => ⟨e tail, rfl⟩

/-- What comes after looking at all tokens that are left. -/
theorem Settled.get {f : List Token → List Token → Parse β}
    (hf : Settled (fun tail => f tail (us ++ tail)) us) :
    Settled (fun tail => get >>= f tail) us :=
  .of_eq (List.suffix_refl us) (fun _ _ => bind_of_ok (get_eq_ok.2 ⟨rfl, rfl⟩)) hf

/-- A rule that fails at every wall. -/
theorem settled_nil {x : List Token → Parse α}
    (h : ∀ t ts, t.kind.isWall = true → ∃ e, x (t :: ts) (t :: ts) = .error e (t :: ts)) :
    Settled x [] := by
  refine .error (List.suffix_refl []) ?_
  rintro _ ⟨t, ts, rfl, hw⟩
  exact h t ts hw

theorem settled_expect {kind : TokenKind} (hk : kind.isWall = false) (expected : Expectation)
    (us : List Token) : Settled (fun _ => expect kind expected) us := by
  rcases us with _ | ⟨u, us⟩
  · exact settled_nil fun t ts hw => ⟨_, expect_of_ne (TokenKind.ne_of_isWall hw hk)⟩
  · by_cases hu : u.kind = kind
    · exact .ok (List.suffix_cons u us) fun _ _ => expect_of_eq hu
    · exact .error (List.suffix_refl _) fun _ _ => ⟨_, expect_of_ne hu⟩

/-- What comes after a token that is consumed if it is there. -/
theorem Settled.accept {kind : TokenKind} (hk : kind.isWall = false)
    {f : List Token → Option Position → Parse β}
    (hsome : ∀ u vs, us = u :: vs → Settled (fun tail => f tail (some u.pos)) vs)
    (hnone : Settled (fun tail => f tail none) us) :
    Settled (fun tail => accept kind >>= f tail) us := by
  have hw : ∀ tail, Walled tail → NextIsNot (· = kind) tail := fun tail ht =>
    ht.nextIsNot (by rintro _ rfl; exact hk)
  rcases us with _ | ⟨u, vs⟩
  · exact .of_eq (List.suffix_refl []) (fun tail ht => bind_of_ok (accept_of_ne (hw tail ht))) hnone
  · by_cases hu : u.kind = kind
    · exact .of_eq (List.suffix_cons u vs) (fun _ _ => bind_of_ok (accept_of_eq hu))
        (hsome u vs rfl)
    · exact .of_eq (List.suffix_refl _)
        (fun _ _ => bind_of_ok (accept_of_ne (nextIsNot_cons.2 hu))) hnone

theorem settled_names : (us : List Token) → Settled (fun _ => names) us
  | [] => by
    refine settled_nil fun t ts hw => ⟨_, names_of_ne fun s => TokenKind.ne_of_isWall hw rfl⟩
  | [u] => by
    by_cases hu : ∃ s, u.kind = .name s
    · obtain ⟨s, hk⟩ := hu
      refine .ok (a := [s]) List.nil_suffix ?_
      rintro _ ⟨t, ts, rfl, hw⟩
      exact names_of_name hk (TokenKind.ne_of_isWall hw rfl)
    · exact .error (List.suffix_refl _) fun _ _ => ⟨_, names_of_ne (not_exists.1 hu)⟩
  | u :: c :: vs => by
    by_cases hu : ∃ s, u.kind = .name s
    · obtain ⟨s, hk⟩ := hu
      by_cases hc : c.kind = .symbol .comma
      · refine .of_eq (List.suffix_append [u, c] vs) (fun _ _ => names_of_comma hk hc) ?_
        exact .bind (settled_names vs) fun ss _ _ => settled_pure (s :: ss)
      · exact .ok (List.suffix_cons u _) fun _ _ => names_of_name hk hc
    · exact .error (List.suffix_refl _) fun _ _ => ⟨_, names_of_ne (not_exists.1 hu)⟩

/-! ### Expressions -/

/-- One of the rounds, when there is one whatever follows. -/
theorem exists_eq_succ {rounds : List Token → Nat} (h : ∀ tail, n < rounds tail) :
    ∃ r : List Token → Nat, rounds = (fun tail => r tail + 1) ∧ ∀ tail, n ≤ r tail := by
  refine ⟨fun tail => rounds tail - 1, funext fun tail => ?_, fun tail => Nat.le_pred_of_lt (h tail)⟩
  exact (Nat.succ_pred_eq_of_pos (Nat.zero_lt_of_lt (h tail))).symm

section Expressions

variable {operator? : TokenKind → Option BinaryOp} {operand : List Token → Parse Expr}

/-- The operators of a chain are no walls, so the chain stops at a wall whatever its
    budget is. -/
theorem settled_chainFrom (hop : ∀ k op, operator? k = some op → k = op.token)
    (ho : SettledWithin n operand) {budget : List Token → Nat} (left : Expr) (hn : us.length < n)
    (hb : ∀ tail, us.length ≤ budget tail) :
    Settled (fun tail => chainFrom operator? (operand tail) (budget tail) left) us := by
  -- Not by induction on the budget, of which there is one for each tail.
  induction hl : us.length using Nat.strongRecOn generalizing us budget left with
  | _ l ih =>
    rcases us with _ | ⟨u, vs⟩
    · refine .ok (a := left) (List.suffix_refl []) fun tail ht => ?_
      refine chainFrom_of_nextIsNot _ _ (ht.nextIsNot fun k hk => ?_)
      obtain ⟨op, hop'⟩ := Option.ne_none_iff_exists'.1 hk
      rw [hop k op hop']
      exact op.isWall_token
    · cases hu : operator? u.kind with
      | none =>
        refine .ok (a := left) (List.suffix_refl _) fun tail _ => ?_
        exact chainFrom_of_nextIsNot _ _ (nextIsNot_cons.2 (not_not.2 hu))
      | some op =>
        obtain ⟨b, rfl, hb'⟩ := exists_eq_succ hb
        rw [List.length_cons] at hn hl
        refine .of_eq (List.suffix_cons u vs) (fun tail _ => chainFrom_of_some hu)
          (.bind (ho (by omega)) fun right ws hs => ?_)
        have hws := hs.length_le
        exact ih ws.length (by omega) _ (by omega) (fun tail => Nat.le_trans hws (hb' tail)) rfl

theorem settled_chain (hop : ∀ k op, operator? k = some op → k = op.token)
    (ho : SettledWithin n operand) :
    SettledWithin n fun tail => chain operator? (operand tail) := by
  intro us hn
  refine .bind (ho hn) fun first vs hs => .get ?_
  refine settled_chainFrom hop ho first (Nat.lt_of_le_of_lt hs.length_le hn) fun tail => ?_
  rw [List.length_append]
  omega

theorem settled_operations (levels : List Level) (ho : SettledWithin n operand) :
    SettledWithin n fun tail => operations levels (operand tail) := by
  induction levels with
  | nil => exact ho
  | cons level levels ih => exact settled_chain (fun _ _ h => (Level.operator?_eq_some.1 h).1) ih

theorem settled_unary {primary : List Token → Parse Expr} (hp : SettledWithin n primary) :
    SettledWithin n fun tail => unary (primary tail) := by
  intro us hn
  induction us with
  | nil =>
    refine .of_eq (List.suffix_refl []) (fun tail ht => unary_of_nextIsNot ?_) (hp hn)
    refine ht.nextIsNot fun k hk => ?_
    obtain ⟨op, hop⟩ := Option.ne_none_iff_exists'.1 hk
    rw [unaryOperator?_eq_some.1 hop]
    exact op.isWall_token
  | cons u us ih =>
    cases hu : unaryOperator? u.kind with
    | none =>
      refine .of_eq (List.suffix_refl _) (fun tail _ => unary_of_nextIsNot ?_) (hp hn)
      exact nextIsNot_cons.2 (not_not.2 hu)
    | some op =>
      refine .of_eq (List.suffix_cons u us) (fun tail _ => unary_of_some hu) ?_
      exact .bind (ih (Nat.lt_of_succ_lt hn)) fun _ _ _ => settled_pure _

variable {expression : List Token → Parse Expr}

theorem settled_primary (hx : SettledWithin n expression) :
    SettledWithin (n + 1) fun tail => primary (expression tail) := by
  intro us hn
  rcases us with _ | ⟨u, us⟩
  · refine settled_nil fun t ts hw => ⟨_, primary_of_ne ?_ ?_ ?_⟩
    · exact fun l => TokenKind.ne_of_isWall hw rfl
    · exact fun s => TokenKind.ne_of_isWall hw rfl
    · exact TokenKind.ne_of_isWall hw rfl
  · rw [List.length_cons] at hn
    by_cases hp : u.kind = .symbol .openParen
    · refine .of_eq (List.suffix_cons u us) (fun tail _ => primary_of_openParen hp) ?_
      refine .bind (hx (by omega)) fun inner vs _ => ?_
      exact .bind (settled_expect rfl _ vs) fun _ _ _ => settled_pure inner
    · cases hk : u.kind with
      | literal l => exact .ok (List.suffix_cons u us) fun _ _ => primary_of_literal hk
      | name s => exact .ok (List.suffix_cons u us) fun _ _ => primary_of_name hk
      | _ =>
        refine .error (List.suffix_refl _) fun _ _ => ⟨_, primary_of_ne ?_ ?_ hp⟩ <;>
          simp [hk]

theorem settled_assignment (hx : SettledWithin n expression) :
    SettledWithin (n + 1) fun tail => assignment (expression tail) := by
  intro us hn
  have ho := settled_operations Level.all (settled_unary (settled_primary hx))
  refine .bind (ho hn) fun target vs hs => ?_
  have hvs := hs.length_le
  refine .accept rfl (fun sign ws hvs' => ?_) (settled_pure target)
  -- The equals sign is one of the tokens before the wall, so the right side has less of them.
  rw [hvs', List.length_cons] at hvs
  refine .bind (hx (by omega)) fun value _ _ => ?_
  cases target with
  | var s pos => exact settled_pure _
  | _ => exact settled_throw _

end Expressions

/-- An expression is settled when there are rounds enough for the tokens before the
    wall. -/
theorem settled_expressionWithin {rounds : List Token → Nat} (hr : ∀ tail, n ≤ rounds tail) :
    SettledWithin n fun tail => expressionWithin (rounds tail) := by
  induction n generalizing rounds with
  | zero => exact fun us hn => absurd hn (Nat.not_lt_zero _)
  | succ n ih =>
    obtain ⟨r, rfl, hr'⟩ := exists_eq_succ hr
    refine settled_chain (fun k op h => ?_) (settled_assignment (ih hr'))
    obtain ⟨hk, rfl⟩ := joinOperator?_eq_some.1 h
    exact hk

theorem settled_expression (us : List Token) : Settled (fun _ => Parse.expression) us := by
  refine .get (settled_expressionWithin (n := us.length + 1) (fun tail => ?_) (Nat.lt_succ_self _))
  rw [List.length_append]
  omega

/-! ### Statements -/

theorem settled_declaredAs (type : ScalarType) (pos : Position) (us : List Token) :
    Settled (fun _ => declaredAs type pos) us := by
  refine .bind (settled_names us) fun declared vs _ => .accept rfl (fun _ ws _ => ?_) ?_
  · exact .bind (settled_expression ws) fun _ _ _ => settled_pure _
  · exact settled_pure _

theorem settled_typed (us : List Token) : Settled (fun _ => typed) us := by
  rcases us with _ | ⟨u, us⟩
  · exact settled_nil fun t ts hw => ⟨_, typed_of_ne fun type => TokenKind.ne_of_isWall hw rfl⟩
  · by_cases hu : ∃ type, u.kind = .keyword (.scalar type)
    · obtain ⟨type, hk⟩ := hu
      exact .of_eq (List.suffix_cons u us) (fun _ _ => typed_of_scalar hk)
        (settled_declaredAs type u.pos us)
    · exact .error (List.suffix_refl _) fun _ _ => ⟨_, typed_of_ne (not_exists.1 hu)⟩

theorem settled_computation (u : Token) (us : List Token) :
    Settled (fun _ => computation) (u :: us) := by
  refine .of_eq (List.suffix_refl _) (fun _ _ => bind_of_ok (peek_cons _ _)) ?_
  exact .bind (settled_expression (u :: us)) fun _ _ _ => settled_pure _

end Parse

end Tudlo
