import Tudlo.Proofs.Grammar.Checking

/-!
# Where reading stops and complains

A rule reads tokens from the front and leaves the others, also when it fails. The
tokens that end the statements of a program are never among those it consumes
(`Parse.Leaves`). When it fails, it complains at a token that it has come to: the
next one, or one that it has consumed before (`Parse.Blames`). The equals sign of an
assignment, for one, is blamed only after the right side is read. Only when the
tokens have run out is there nothing to complain at.

The argument goes from rule to rule (`Parse.Locates`), and it holds for all tokens.
The rules that are limited to a number of rounds never run out of them, as each
round consumes a token (`Parse.LocatesWithin`).

The tokens of a source text end with the token for its end (`Parse.Closed`). As that
one is never consumed, there is always a token to complain at, and an error of
reading is placed at one of the tokens.

* `Parse.declaration_locates`: declarations;
* `Program.locates_of_parse`: programs.
-/

namespace Tudlo

namespace Parse

variable {α β : Type} {all ts mid rest : List Token} {t : Token} {e : SyntaxError}

/-! ### What is left -/

/-- The tokens `rest` are left of `ts`, and none of those before them ends the
    statements of a program. -/
def Leaves (ts rest : List Token) : Prop :=
  ∃ us, ts = us ++ rest ∧ ∀ t ∈ us, t.kind.isFinal = false

theorem Leaves.refl (ts : List Token) : Leaves ts ts :=
  ⟨[], rfl, fun _ h => absurd h List.not_mem_nil⟩

theorem Leaves.trans (h : Leaves ts mid) (h' : Leaves mid rest) : Leaves ts rest := by
  obtain ⟨us, rfl, hu⟩ := h
  obtain ⟨vs, rfl, hv⟩ := h'
  refine ⟨us ++ vs, (List.append_assoc us vs rest).symm, fun t ht => ?_⟩
  rcases List.mem_append.1 ht with ht | ht
  · exact hu t ht
  · exact hv t ht

theorem Leaves.cons (hk : t.kind.isFinal = false) (h : Leaves ts rest) : Leaves (t :: ts) rest :=
  .trans ⟨[t], rfl, by simpa using hk⟩ h

theorem Leaves.suffix (h : Leaves ts rest) : rest <:+ ts := by
  obtain ⟨us, rfl, -⟩ := h
  exact List.suffix_append us rest

theorem Leaves.length_le (h : Leaves ts rest) : rest.length ≤ ts.length :=
  h.suffix.length_le

/-- Tokens can be given up until one comes that ends the statements. -/
theorem leaves_dropWhile {p : Token → Bool} (hp : ∀ t, p t = true → t.kind.isFinal = false)
    (ts : List Token) : Leaves ts (ts.dropWhile p) :=
  ⟨ts.takeWhile p, List.takeWhile_append_dropWhile.symm,
    fun t ht => hp t (List.all_eq_true.1 List.all_takeWhile t ht)⟩

/-! ### What is blamed -/

/-- Of all tokens, those before `rest` were passed, and the error is placed at one of
    them or at the first of `rest`. When there is none, the complaint is that the
    tokens have run out. -/
def Blames (all rest : List Token) (e : SyntaxError) : Prop :=
  (rest = [] ∧ e = outOfTokens) ∨ ∃ t us, t :: us <:+ all ∧ rest <:+ t :: us ∧ t.pos = e.pos

/-- When more tokens are given up, the ones that were passed still are. -/
theorem Blames.of_suffix (h : Blames all mid e) (hs : rest <:+ mid) : Blames all rest e := by
  rcases h with ⟨rfl, rfl⟩ | ⟨t, us, ht, hm, hp⟩
  · exact .inl ⟨List.suffix_nil.1 hs, rfl⟩
  · exact .inr ⟨t, us, ht, hs.trans hm, hp⟩

/-- The rule leaves some of the tokens `ts`, and if it fails, it complains at one of
    all tokens that was passed or is the next one. -/
structure Locates (all : List Token) (rule : Parse α) (ts : List Token) : Prop where
  leaves : ∀ {a rest}, rule ts = .ok a rest → Leaves ts rest
  blames : ∀ {e rest}, rule ts = .error e rest → Leaves ts rest ∧ Blames all rest e

/-- The rule locates when it is given less than `n` tokens of all. -/
def LocatesWithin (all : List Token) (n : Nat) (rule : Parse α) : Prop :=
  ∀ ⦃ts⦄, ts.length < n → ts <:+ all → Locates all rule ts

/-! ### Steps -/

theorem Locates.bind {x : Parse α} {f : α → Parse β} (h : ts <:+ all) (hx : Locates all x ts)
    (hf : ∀ a rest, x ts = .ok a rest → rest.length ≤ ts.length → rest <:+ all →
      Locates all (f a) rest) : Locates all (x >>= f) ts where
  leaves {b rest} hb := by
    obtain ⟨a, mid, ha, hb⟩ := bind_eq_ok.1 hb
    have hl := hx.leaves ha
    exact hl.trans ((hf a mid ha hl.length_le (hl.suffix.trans h)).leaves hb)
  blames {e rest} he := by
    cases ha : x ts with
    | ok a mid =>
      have hl := hx.leaves ha
      rw [bind_of_ok ha] at he
      obtain ⟨hl', hb⟩ := (hf a mid ha hl.length_le (hl.suffix.trans h)).blames he
      exact ⟨hl.trans hl', hb⟩
    | error e' mid =>
      rw [bind_of_error ha] at he
      obtain ⟨rfl, rfl⟩ := EStateM.Result.error.inj he
      exact hx.blames ha

theorem Locates.of_ok {rule : Parse α} {a : α} (h : rule ts = .ok a rest) (hl : Leaves ts rest) :
    Locates all rule ts where
  leaves ha := by
    rw [h] at ha
    obtain ⟨-, rfl⟩ := EStateM.Result.ok.inj ha
    exact hl
  blames he := by
    rw [h] at he
    cases he

theorem Locates.of_error {rule : Parse α} (h : rule ts = .error e rest) (hl : Leaves ts rest)
    (hb : Blames all rest e) : Locates all rule ts where
  leaves ha := by
    rw [h] at ha
    cases ha
  blames he := by
    rw [h] at he
    obtain ⟨rfl, rfl⟩ := EStateM.Result.error.inj he
    exact ⟨hl, hb⟩

/-- A rule that goes on with another one on less tokens. -/
theorem Locates.of_eq {rule rule' : Parse α} (h : rule ts = rule' rest) (hl : Leaves ts rest)
    (hr : Locates all rule' rest) : Locates all rule ts where
  leaves ha := hl.trans (hr.leaves (h ▸ ha))
  blames he := by
    obtain ⟨hl', hb⟩ := hr.blames (h ▸ he)
    exact ⟨hl.trans hl', hb⟩

theorem locates_pure (a : α) : Locates all (pure a) ts :=
  .of_ok (pure_eq_ok.2 ⟨rfl, rfl⟩) (.refl ts)

/-- A complaint at a token that was passed. -/
theorem locates_throw {cause : SyntaxCause} {us : List Token} (ht : t :: us <:+ all)
    (hs : ts <:+ t :: us) : Locates all (throw ⟨cause, t.pos⟩ : Parse α) ts :=
  .of_error rfl (.refl ts) (.inr ⟨t, us, ht, hs, rfl⟩)

/-- What comes after looking at all tokens that are left. -/
theorem Locates.get {f : List Token → Parse β} (hf : Locates all (f ts) ts) :
    Locates all (get >>= f) ts :=
  .of_eq (bind_of_ok (get_eq_ok.2 ⟨rfl, rfl⟩)) (.refl ts) hf

/-- What comes after looking at a token. -/
theorem Locates.peek {f : Token → Parse β}
    (hf : ∀ t us, ts = t :: us → Locates all (f t) (t :: us)) :
    Locates all (peek >>= f) ts := by
  rcases ts with _ | ⟨t, us⟩
  · exact .of_error (bind_of_error rfl) (.refl []) (.inl ⟨rfl, rfl⟩)
  · exact .of_eq (bind_of_ok (peek_cons t us)) (.refl _) (hf t us rfl)

/-- What comes after consuming a token. -/
theorem Locates.skip {f : Unit → Parse β} (hk : t.kind.isFinal = false)
    (hf : Locates all (f ()) ts) : Locates all (skip >>= f) (t :: ts) :=
  .of_eq (bind_of_ok (skip_cons t ts)) (.cons hk (.refl ts)) hf

theorem locates_skip (hk : t.kind.isFinal = false) : Locates all skip (t :: ts) :=
  .of_ok (skip_cons t ts) (.cons hk (.refl ts))

theorem locates_takeIf {recognise : TokenKind → Option α}
    (hr : ∀ k a, recognise k = some a → k.isFinal = false) : Locates all (takeIf recognise) ts := by
  rcases ts with _ | ⟨t, us⟩
  · exact .of_ok rfl (.refl [])
  · cases ha : recognise t.kind with
    | none => exact .of_ok (takeIf_of_none (by simpa using ha)) (.refl _)
    | some a => exact .of_ok (takeIf_of_some ha) (.cons (hr t.kind a ha) (.refl us))

theorem locates_accept {kind : TokenKind} (hk : kind.isFinal = false) (h : ts <:+ all) :
    Locates all (accept kind) ts := by
  refine .bind h (locates_takeIf fun k _ hr => ?_) fun _ _ _ _ _ => locates_pure _
  obtain ⟨rfl, -⟩ := Option.ite_none_right_eq_some.1 hr
  exact hk

theorem locates_expect {kind : TokenKind} (hk : kind.isFinal = false) (expected : Expectation)
    (h : ts <:+ all) : Locates all (expect kind expected) ts := by
  refine .peek fun t us hts => ?_
  subst hts
  split
  · rename_i ht
    exact locates_skip (ht ▸ hk)
  · exact locates_throw h (List.suffix_refl _)

theorem locates_names : (ts : List Token) → ts <:+ all → Locates all names ts
  | [], _ => .of_error rfl (.refl []) (.inl ⟨rfl, rfl⟩)
  | t :: us, h => by
    by_cases ht : ∃ s, t.kind = .name s
    · obtain ⟨s, hk⟩ := ht
      have hf : t.kind.isFinal = false := by rw [hk]; rfl
      rcases us with _ | ⟨c, us⟩
      · exact .of_ok (a := [s]) (by simp [names, hk]) (.cons hf (.refl []))
      · by_cases hc : c.kind = .symbol .comma
        · have hu : us <:+ all := (List.suffix_append [t, c] us).trans h
          refine .of_eq (names_of_comma hk hc) (.cons hf (.cons (by rw [hc]; rfl) (.refl us))) ?_
          exact .bind hu (locates_names us hu) fun _ _ _ _ _ => locates_pure _
        · exact .of_ok (names_of_name hk hc) (.cons hf (.refl _))
    · refine .of_error (names_of_ne (not_exists.1 ht)) (.refl _) ?_
      exact .inr ⟨t, us, h, List.suffix_refl _, rfl⟩

/-! ### Expressions -/

/-- No operator ends the statements of a program. -/
theorem isFinal_token (op : BinaryOp) : op.token.isFinal = false := by
  cases op <;> rfl

theorem isFinal_of_unaryOperator? {k : TokenKind} {op : UnaryOp} (h : unaryOperator? k = some op) :
    k.isFinal = false := by
  rw [unaryOperator?_eq_some.1 h]
  cases op <;> rfl

variable {n : Nat}

theorem chainFrom_locates {operator? : TokenKind → Option BinaryOp} {operand : Parse Expr}
    (hop : ∀ k op, operator? k = some op → k = op.token) (ho : LocatesWithin all n operand)
    (budget : Nat) (left : Expr) :
    LocatesWithin all n (chainFrom operator? operand budget left) := by
  intro ts hn h
  induction budget generalizing ts left with
  | zero => exact locates_pure left
  | succ budget ih =>
    rw [chainFrom]
    refine .bind h (locates_takeIf ?_) fun r us _ hl hu => ?_
    · rintro k op hk
      rw [hop k op hk]
      exact isFinal_token op
    · rcases r with _ | ⟨op, pos⟩
      · exact locates_pure left
      · refine .bind hu (ho (by omega) hu) fun right vs _ hl' hv => ?_
        exact ih _ (by omega) hv

theorem chain_locates {operator? : TokenKind → Option BinaryOp} {operand : Parse Expr}
    (hop : ∀ k op, operator? k = some op → k = op.token) (ho : LocatesWithin all n operand) :
    LocatesWithin all n (chain operator? operand) := by
  intro ts hn h
  refine .bind h (ho hn h) fun first us _ hl hu => ?_
  exact .get (chainFrom_locates hop ho _ first (by omega) hu)

theorem operations_locates (levels : List Level) {operand : Parse Expr}
    (ho : LocatesWithin all n operand) : LocatesWithin all n (operations levels operand) := by
  induction levels with
  | nil => exact ho
  | cons level levels ih => exact chain_locates (fun _ _ h => (Level.operator?_eq_some.1 h).1) ih

theorem unary_locates {primary : Parse Expr} (hp : LocatesWithin all n primary) :
    LocatesWithin all n (unary primary) := by
  intro ts hn h
  induction ts with
  | nil => exact .of_eq (unary_of_nextIsNot (nextIsNot_nil _)) (.refl []) (hp hn h)
  | cons t ts ih =>
    cases hop : unaryOperator? t.kind with
    | none =>
      refine .of_eq (unary_of_nextIsNot ?_) (.refl _) (hp hn h)
      exact nextIsNot_cons.2 (not_not.2 hop)
    | some op =>
      have hs : ts <:+ all := (List.suffix_cons t ts).trans h
      refine .of_eq (unary_of_some hop) (.cons (isFinal_of_unaryOperator? hop) (.refl ts)) ?_
      exact .bind hs (ih (Nat.lt_of_succ_lt hn) hs) fun _ _ _ _ _ => locates_pure _

/-- An expression inside parentheses is given less tokens. -/
theorem primary_locates {expression : Parse Expr} (hx : LocatesWithin all n expression) :
    LocatesWithin all (n + 1) (primary expression) := by
  intro ts hn h
  refine .peek fun t us hts => ?_
  subst hts
  have hu : us <:+ all := (List.suffix_cons t us).trans h
  rw [List.length_cons] at hn
  split
  · rename_i l hk
    exact .skip (by rw [hk]; rfl) (locates_pure _)
  · rename_i s hk
    exact .skip (by rw [hk]; rfl) (locates_pure _)
  · rename_i hk
    refine .skip (by rw [hk]; rfl) (.bind hu (hx (by omega) hu) fun inner vs _ _ hv => ?_)
    exact .bind hv (locates_expect rfl _ hv) fun _ _ _ _ _ => locates_pure _
  · exact locates_throw h (List.suffix_refl _)

/-- The right side of an assignment is given less tokens, too. -/
theorem assignment_locates {expression : Parse Expr} (hx : LocatesWithin all n expression) :
    LocatesWithin all (n + 1) (assignment expression) := by
  intro ts hn h
  have ho := operations_locates Level.all (unary_locates (primary_locates hx))
  refine .bind h (ho hn h) fun target us _ hl hu => ?_
  refine .bind hu (locates_accept rfl hu) fun r vs ha _ hv => ?_
  rcases accept_eq_ok ha with ⟨sign, rfl, hk, rfl⟩ | ⟨rfl, rfl, -⟩
  · rw [List.length_cons] at hl
    have hv' := hx (by omega) hv
    refine .bind hv hv' fun value ws hw _ _ => ?_
    split
    · exact locates_pure _
    · -- The sign is not among the tokens that are left now, but it was passed.
      exact locates_throw hu ((hv'.leaves hw).suffix.trans (List.suffix_cons sign vs))
  · exact locates_pure _

theorem expressionWithin_locates (n : Nat) : LocatesWithin all n (expressionWithin n) := by
  induction n with
  | zero => exact fun ts hn h => absurd hn (Nat.not_lt_zero _)
  | succ n ih =>
    refine chain_locates (fun k op h => ?_) (assignment_locates ih)
    obtain ⟨hk, rfl⟩ := joinOperator?_eq_some.1 h
    exact hk

theorem expression_locates (h : ts <:+ all) : Locates all expression ts :=
  .get (expressionWithin_locates (ts.length + 1) (Nat.lt_succ_self _) h)

/-! ### Statements -/

theorem typed_locates (h : ts <:+ all) : Locates all typed ts := by
  refine .peek fun t us hts => ?_
  subst hts
  split
  · rename_i type hk
    have hu : us <:+ all := (List.suffix_cons t us).trans h
    refine .skip (by rw [hk]; rfl) (.bind hu (locates_names us hu) fun declared vs _ _ hv => ?_)
    refine .bind hv (locates_accept rfl hv) fun r ws _ _ hw => ?_
    split
    · exact .bind hw (expression_locates hw) fun _ _ _ _ _ => locates_pure _
    · exact locates_pure _
  · exact locates_throw h (List.suffix_refl _)

theorem computation_locates (h : ts <:+ all) : Locates all computation ts := by
  refine .peek fun t us hts => ?_
  subst hts
  exact .bind h (expression_locates h) fun _ _ _ _ _ => locates_pure _

theorem clause_locates (h : ts <:+ all) : Locates all clause ts := by
  refine .bind h (locates_accept rfl h) fun r us _ _ hu => ?_
  split
  · exact typed_locates hu
  · exact computation_locates hu

theorem clauses_locates (h : ts <:+ all) : Locates all clauses ts := by
  refine .bind h (clause_locates h) fun initial us _ _ hu => ?_
  refine .bind hu (locates_expect rfl _ hu) fun _ vs _ _ hv => ?_
  refine .bind hv (expression_locates hv) fun condition ws _ _ hw => ?_
  refine .bind hw (locates_expect rfl _ hw) fun _ xs _ _ hx => ?_
  exact .bind hx (clause_locates hx) fun _ _ _ _ _ => locates_pure _

/-! ### Blocks, and the statements that have them -/

/-- The rule consumes a token when it succeeds. -/
def Consumes (rule : Parse α) : Prop :=
  ∀ ⦃ts a rest⦄, rule ts = .ok a rest → rest.length < ts.length

variable {declaration : Parse Statement} {block : Parse Block}

/-- Each declaration of a block consumes a token, so the budget is never used up. -/
theorem declarationsWithin_locates (hd : LocatesWithin all n declaration)
    (hc : Consumes declaration) {budget : Nat} (hn : ts.length < n) (hb : ts.length < budget)
    (h : ts <:+ all) : Locates all (declarationsWithin declaration budget) ts := by
  induction budget generalizing ts with
  | zero => exact absurd hb (Nat.not_lt_zero _)
  | succ budget ih =>
    refine .peek fun t us hts => ?_
    subst hts
    split_ifs with hk hf
    · exact .skip (by rw [hk]; rfl) (locates_pure _)
    · exact locates_throw h (List.suffix_refl _)
    · -- With `hc` the declarations after the first one fit the smaller budget.
      refine .bind h (hd hn h) fun first vs hv hl hvs => ?_
      have := hc hv
      refine .bind hvs (ih (by omega) (by omega) hvs) fun others ws _ _ hw => ?_
      exact locates_pure _

/-- The declarations of a block are given less tokens than the block. -/
theorem blockOf_locates (hd : LocatesWithin all n declaration) (hc : Consumes declaration) :
    LocatesWithin all (n + 1) (blockOf declaration) := by
  intro ts hn h
  refine .peek fun t us hts => ?_
  subst hts
  refine .bind h (locates_accept rfl h) fun _ vs _ hl hv => ?_
  refine .bind hv (locates_expect rfl _ hv) fun _ ws he _ hw => ?_
  obtain ⟨o, rfl, -⟩ := expect_eq_ok he
  rw [List.length_cons] at hl
  refine .get (.bind hw (declarationsWithin_locates hd hc (by omega) (Nat.lt_succ_self _) hw) ?_)
  exact fun _ _ _ _ _ => locates_pure _

theorem choiceWithin_locates (hb : LocatesWithin all n block) {rounds : Nat} (pos : Position)
    (hn : ts.length < n) (hr : ts.length < rounds) (h : ts <:+ all) :
    Locates all (choiceWithin block rounds pos) ts := by
  induction rounds generalizing ts pos with
  | zero => exact absurd hr (Nat.not_lt_zero _)
  | succ rounds ih =>
    refine .bind h (expression_locates h) fun condition us _ hl hu => ?_
    refine .bind hu (hb (by omega) hu) fun whenTrue vs _ hl' hv => ?_
    refine .peek fun next ws hvs => ?_
    subst hvs
    rw [List.length_cons] at hl'
    have hw : ws <:+ all := (List.suffix_cons next ws).trans hv
    split
    · rename_i hk
      refine .skip (by rw [hk]; rfl)
        (.bind hw (ih next.pos (by omega) (by omega) hw) fun _ _ _ _ _ => ?_)
      exact locates_pure _
    · rename_i hk
      exact .skip (by rw [hk]; rfl) (.bind hw (hb (by omega) hw) fun _ _ _ _ _ => locates_pure _)
    · exact locates_pure _

theorem loop_locates (hb : LocatesWithin all n block) (pos : Position) :
    LocatesWithin all n (loop block pos) := by
  intro ts hn h
  cases hp : clausesInParentheses ts with
  | false =>
    refine .of_eq (loop_of_bare hp) (.refl ts) ?_
    refine .bind h (clauses_locates h) fun clauses us _ hl hu => ?_
    exact .bind hu (hb (by omega) hu) fun _ _ _ _ _ => locates_pure _
  | true =>
    obtain ⟨o, us, rfl, ho⟩ := cons_of_clausesInParentheses hp
    have hu : us <:+ all := (List.suffix_cons o us).trans h
    rw [List.length_cons] at hn
    refine .of_eq (loop_of_parentheses hp) (.refl _) (.skip (by rw [ho]; rfl) ?_)
    refine .bind hu (clauses_locates hu) fun clauses vs _ hl hv => ?_
    refine .bind hv (locates_expect rfl _ hv) fun _ ws _ hl' hw => ?_
    exact .bind hw (hb (by omega) hw) fun _ _ _ _ _ => locates_pure _

theorem statementOf_locates (hd : LocatesWithin all n declaration) (hc : Consumes declaration) :
    LocatesWithin all (n + 1) (statementOf declaration) := by
  intro ts hn h
  have hb := blockOf_locates hd hc
  refine .peek fun t us hts => ?_
  subst hts
  have hu : us <:+ all := (List.suffix_cons t us).trans h
  have hus : us.length < n + 1 := Nat.lt_of_succ_lt hn
  split
  · rename_i hk
    refine .skip (by rw [hk]; rfl) (.bind hu (locates_expect rfl _ hu) fun _ vs _ _ hv => ?_)
    exact .bind hv (expression_locates hv) fun _ _ _ _ _ => locates_pure _
  · rename_i hk
    refine .skip (by rw [hk]; rfl) (.bind hu (locates_expect rfl _ hu) fun _ vs _ _ hv => ?_)
    exact .bind hv (locates_names vs hv) fun _ _ _ _ _ => locates_pure _
  · rename_i hk
    exact .skip (by rw [hk]; rfl)
      (.get (choiceWithin_locates hb t.pos hus (Nat.lt_succ_self _) hu))
  · rename_i hk
    exact .skip (by rw [hk]; rfl) (loop_locates hb t.pos hus hu)
  · exact .bind h (hb hn h) fun _ _ _ _ _ => locates_pure _
  · exact .bind h (hb hn h) fun _ _ _ _ _ => locates_pure _
  · exact typed_locates h
  · exact computation_locates h

/-- Giving up tokens does not change the complaint, and stops before a token that
    ends the statements. -/
theorem Locates.resuming {rule : Parse α} (h : Locates all rule ts) :
    Locates all (resuming rule) ts where
  leaves ha := h.leaves (resuming_eq_ok.1 ha)
  blames {e rest} he := by
    rw [Parse.resuming] at he
    split at he
    · cases he
    · rename_i e' mid hr
      obtain ⟨rfl, rfl⟩ := EStateM.Result.error.inj he
      obtain ⟨hl, hb⟩ := h.blames hr
      have hd := leaves_dropWhile (p := fun t => !(t.kind.isFinal || t.kind.beginsStatement))
        (by simp +contextual) mid
      exact ⟨hl.trans hd, hb.of_suffix hd.suffix⟩

theorem declarationWithin_consumes (n : Nat) : Consumes (declarationWithin n) := by
  intro ts s rest h
  obtain ⟨us, rfl, hd⟩ := declarationWithin_reads n h
  have := List.length_pos_of_ne_nil hd.declaration_ne_nil
  rw [List.length_append]
  omega

theorem declarationWithin_locates (n : Nat) : LocatesWithin all n (declarationWithin n) := by
  induction n with
  | zero => exact fun ts hn h => absurd hn (Nat.not_lt_zero _)
  | succ n ih =>
    intro ts hn h
    refine .resuming (.bind h (locates_accept rfl h) fun r us _ hl hu => ?_)
    split
    · exact typed_locates hu
    · exact statementOf_locates ih (declarationWithin_consumes n) (by omega) hu

theorem declaration_locates (h : ts <:+ all) : Locates all Parse.declaration ts :=
  .get (declarationWithin_locates (ts.length + 1) (Nat.lt_succ_self _) h)

/-! ### Programs -/

theorem bodyWithin_locates {budget : Nat} (hb : ts.length < budget) (h : ts <:+ all) :
    Locates all (bodyWithin budget) ts := by
  induction budget generalizing ts with
  | zero => exact absurd hb (Nat.not_lt_zero _)
  | succ budget ih =>
    refine .peek fun t us hts => ?_
    subst hts
    split
    · exact locates_pure _
    · refine .bind h (declaration_locates h) fun first vs hv _ hvs => ?_
      have := length_lt_of_declaration hv
      exact .bind hvs (ih (by omega) hvs) fun _ _ _ _ _ => locates_pure _

theorem beginning_locates (h : ts <:+ all) : Locates all beginning ts := by
  refine .peek fun t us hts => ?_
  subst hts
  split
  · rename_i hk
    exact locates_skip (by rw [hk]; rfl)
  · exact locates_throw h (List.suffix_refl _)

/-! ### Tokens that end with the end of the text -/

/-- The last token is the one for the end of the text. -/
def Closed (all : List Token) : Prop :=
  ∀ t ∈ all.getLast?, t.kind = .ending

/-- The token for the end of the text is always left. -/
theorem Closed.of_leaves (hc : Closed ts) (hne : ts ≠ []) (h : Leaves ts rest) :
    Closed rest ∧ rest ≠ [] := by
  obtain ⟨us, rfl, hu⟩ := h
  have hr : rest ≠ [] := by
    rintro rfl
    rw [List.append_nil] at hc hne
    have hf := hu _ (List.getLast_mem hne)
    rw [hc _ (List.getLast?_eq_some_getLast hne)] at hf
    cases hf
  refine ⟨fun t ht => hc t ?_, hr⟩
  rw [List.getLast?_append_of_ne_nil us hr]
  exact ht

/-- So there is always a token to complain at. -/
theorem Locates.exists_of_error {rule : Parse α} (h : Locates all rule ts) (hc : Closed ts)
    (hne : ts ≠ []) (he : rule ts = .error e rest) :
    ∃ t us, t :: us <:+ all ∧ rest <:+ t :: us ∧ t.pos = e.pos := by
  obtain ⟨hl, hb⟩ := h.blames he
  rcases hb with ⟨hr, -⟩ | hb
  · exact absurd hr (hc.of_leaves hne hl).2
  · exact hb

/-- The conclusion consumes the keyword that ends the statements, but not the end of
    the text. -/
theorem mem_of_conclusion (hc : Closed ts) (hne : ts ≠ []) (he : conclusion ts = .error e rest) :
    ∃ t ∈ ts, t.pos = e.pos := by
  obtain ⟨t, us, rfl⟩ := List.exists_cons_of_ne_nil hne
  rw [conclusion, bind_of_ok (peek_cons t us)] at he
  split at he
  · rename_i hk
    rw [bind_of_ok (skip_cons t us)] at he
    rcases us with _ | ⟨next, vs⟩
    · have := hc t rfl
      rw [hk] at this
      cases this
    · rw [bind_of_ok (peek_cons next vs)] at he
      split at he
      · cases he
      · obtain ⟨rfl, -⟩ := EStateM.Result.error.inj he
        exact ⟨next, by simp, rfl⟩
  · obtain ⟨rfl, -⟩ := EStateM.Result.error.inj he
    exact ⟨t, List.mem_cons_self, rfl⟩

end Parse

/-- An error of reading is placed at one of the tokens. -/
theorem Program.locates_of_parse {tokens : List Token} {e : SyntaxError}
    (hall : Parse.Closed tokens) (hne : tokens ≠ []) (h : Program.parse tokens = .error e) :
    ∃ t ∈ tokens, t.pos = e.pos := by
  rw [Program.parse] at h
  split at h
  · cases h
  · rename_i e' rest hp
    obtain rfl := Except.error.inj h
    have hb := Parse.beginning_locates (List.suffix_refl tokens)
    rcases Parse.bind_eq_error.1 hp with hp | ⟨_, us, hus, hp⟩
    · obtain ⟨t, us, hs, -, ht⟩ := hb.exists_of_error hall hne hp
      exact ⟨t, hs.subset List.mem_cons_self, ht⟩
    have hu := (hb.leaves hus).suffix
    obtain ⟨hc, hne⟩ := hall.of_leaves hne (hb.leaves hus)
    rw [Parse.bind_of_ok (Parse.get_eq_ok.2 ⟨rfl, rfl⟩)] at hp
    have hl := Parse.bodyWithin_locates (Nat.lt_succ_self _) hu
    rcases Parse.bind_eq_error.1 hp with hp | ⟨body, vs, hvs, hp⟩
    · obtain ⟨t, us, hs, -, ht⟩ := hl.exists_of_error hc hne hp
      exact ⟨t, hs.subset List.mem_cons_self, ht⟩
    have hv := (hl.leaves hvs).suffix.trans hu
    obtain ⟨hc, hne⟩ := hc.of_leaves hne (hl.leaves hvs)
    rcases Parse.bind_eq_error.1 hp with hp | ⟨_, ws, _, hp⟩
    · obtain ⟨t, ht, hpos⟩ := Parse.mem_of_conclusion hc hne hp
      exact ⟨t, hv.subset ht, hpos⟩
    · cases hp

end Tudlo
