import Tudlo.Proofs.Grammar.Printing

/-!
# What is printed is read back

Whatever choices are made in printing, reading the tokens gives the tree again,
up to positions, which the tokens may have as they like.

* `Expr.Printed.derives`: a printed expression is derived by the rule of its
  place;
* `Phrase.Recovers`: the statement that goes through the induction over a
  printing, for every sort of phrase;
* `Program.parse_of_printed`: the whole.

The statements need the token after them to separate (`Boundary`). What is
printed always begins with such a token (`Phrase.Printed.head_of_declaration`),
so statements can be put one after the other.
-/

namespace Tudlo

open Parse

/-! ### Expressions -/

/-- The rule for a place. -/
def Rule.ofRank : (place : Nat) → Rule
  | 0 => .expression
  | 1 => .operands
  | 2 => .level .or
  | 3 => .level .and
  | 4 => .level .equality
  | 5 => .level .comparison
  | 6 => .level .term
  | 7 => .level .factor
  | 8 => .unary
  | _ => .primary

theorem Rule.ofRank_rank (l : Level) : Rule.ofRank l.rank = .level l := by
  cases l <;> rfl

/-- What fits a place fits the place that asks for one less. -/
theorem Rule.Derives.ofRank_of_succ {ts : List Token} {e : Expr} :
    {n : Nat} → (Rule.ofRank (n + 1)).Derives ts e → (Rule.ofRank n).Derives ts e
  | 0, h => h.expression_of_operands
  | 1, h => .first h
  | 2, h | 3, h | 4, h | 5, h | 6, h | 7, h => .operand h
  | 8, h => .primary h
  | _ + 9, h => h

theorem Rule.Derives.ofRank_of_le {ts : List Token} {e : Expr} {n m : Nat} (hnm : n ≤ m)
    (h : (Rule.ofRank m).Derives ts e) : (Rule.ofRank n).Derives ts e := by
  induction hnm with
  | refl => exact h
  | step _ ih => exact ih h.ofRank_of_succ

/-- A primary expression fits everywhere. -/
theorem Rule.Derives.ofRank_of_primary {ts : List Token} {e : Expr} (n : Nat)
    (h : Rule.primary.Derives ts e) : (Rule.ofRank n).Derives ts e := by
  have hp : (Rule.ofRank (n + 9)).Derives ts e := h
  exact hp.ofRank_of_le (Nat.le_add_right n 9)

/-- An operation fits a place that asks for its own rank. -/
theorem Rule.Derives.ofRank_binary {op : BinaryOp} {t : Token} {ts us : List Token} {e d : Expr}
    (h : (Rule.ofRank op.rank).Derives ts e) (hk : t.kind = op.token)
    (hd : (Rule.ofRank (op.rank + 1)).Derives us d) :
    (Rule.ofRank op.rank).Derives (ts ++ t :: us) (.binary op e d t.pos) := by
  cases op with
  | join => exact .next h hk hd
  | _ => exact .operation rfl h hk hd

/-- Tokens printed for an expression are derived by the rule of the place, and
    the tree is the one that was printed. -/
theorem Expr.Printed.derives {place : Nat} {e : Expr} {ks : List TokenKind} {ts : List Token}
    (h : Expr.Printed place e ks) (ht : ts.map Token.kind = ks) :
    ∃ e', (Rule.ofRank place).Derives ts e' ∧ e'.unplaced = e.unplaced := by
  induction h generalizing ts with
  | @literal place l value pos hv =>
    obtain ⟨t, rfl, hk⟩ := List.map_eq_singleton_iff.1 ht
    exact ⟨.literal l.value t.pos, .ofRank_of_primary place (.literal hk), by rw [hv]; rfl⟩
  | @var place s pos =>
    obtain ⟨t, rfl, hk⟩ := List.map_eq_singleton_iff.1 ht
    exact ⟨.var s t.pos, .ofRank_of_primary place (.name hk), rfl⟩
  | @assign s e pos ks _ ih =>
    obtain ⟨t, _, rfl, hk, ht⟩ := List.map_eq_cons_iff.1 ht
    obtain ⟨q, us, rfl, hq, ht⟩ := List.map_eq_cons_iff.1 ht
    obtain ⟨e', hd, he⟩ := ih ht
    -- On the left of an equals sign the grammar asks for a disjunction.
    have hv : (Rule.ofRank 2).Derives [t] (.var s t.pos) := .ofRank_of_primary 2 (.name hk)
    exact ⟨.assign s e' t.pos, .single (.assign hv hq hd), by rw [unplaced, he]; rfl⟩
  | @unary place op e pos ks hp _ ih =>
    obtain ⟨t, us, rfl, hk, ht⟩ := List.map_eq_cons_iff.1 ht
    obtain ⟨e', hd, he⟩ := ih ht
    have hu : (Rule.ofRank 8).Derives (t :: us) (.unary op e' t.pos) := .unary hk hd
    exact ⟨.unary op e' t.pos, hu.ofRank_of_le hp, by rw [unplaced, he]; rfl⟩
  | @binary place op e d pos ks js hp _ _ ih ihd =>
    obtain ⟨us, _, rfl, hu, ht⟩ := List.map_eq_append_iff.1 ht
    obtain ⟨t, vs, rfl, hk, ht⟩ := List.map_eq_cons_iff.1 ht
    obtain ⟨e', hd, he⟩ := ih hu
    obtain ⟨d', hd', hde⟩ := ihd ht
    exact ⟨.binary op e' d' t.pos, (hd.ofRank_binary hk hd').ofRank_of_le hp,
      by rw [unplaced, he, hde]; rfl⟩
  | @parentheses place e ks _ _ ih =>
    obtain ⟨o, _, rfl, ho, ht⟩ := List.map_eq_cons_iff.1 ht
    obtain ⟨us, _, rfl, hu, ht⟩ := List.map_eq_append_iff.1 ht
    obtain ⟨c, rfl, hc⟩ := List.map_eq_singleton_iff.1 ht
    obtain ⟨e', hd, he⟩ := ih hu
    exact ⟨e', .ofRank_of_primary place (.parentheses ho hd hc), he⟩

variable {s : Statement} {ks : List TokenKind} {ts rest : List Token}

/-- An expression in parentheses is derived as an expression. -/
theorem Expr.Printed.derives_in_parentheses {e : Expr} (h : Expr.Printed 0 e ks)
    (ht : ts.map Token.kind = .symbol .openParen :: (ks ++ [.symbol .closeParen])) :
    ∃ o us c e', ts = o :: (us ++ [c]) ∧ o.kind = .symbol .openParen ∧
      c.kind = .symbol .closeParen ∧ Rule.expression.Derives us e' ∧
      Rule.expression.Derives ts e' ∧ e'.unplaced = e.unplaced := by
  obtain ⟨o, _, rfl, ho, ht⟩ := List.map_eq_cons_iff.1 ht
  obtain ⟨us, _, rfl, hu, ht⟩ := List.map_eq_append_iff.1 ht
  obtain ⟨c, rfl, hc⟩ := List.map_eq_singleton_iff.1 ht
  obtain ⟨e', hd, he⟩ := h.derives hu
  exact ⟨o, us, c, e', rfl, ho, hc, hd, .ofRank_of_primary 0 (.parentheses ho hd hc), he⟩

/-! ### Declarations and clauses -/

theorem NamesPrinted.derives {ss : List String} (h : NamesPrinted ss ks)
    (ht : ts.map Token.kind = ks) : NamesDerive ts ss := by
  induction h generalizing ts with
  | last =>
    obtain ⟨t, rfl, hk⟩ := List.map_eq_singleton_iff.1 ht
    exact .last hk
  | more _ ih =>
    obtain ⟨t, _, rfl, hk, ht⟩ := List.map_eq_cons_iff.1 ht
    obtain ⟨c, us, rfl, hc, ht⟩ := List.map_eq_cons_iff.1 ht
    exact .more hk hc (ih ht)

theorem TypedPrinted.derives (h : TypedPrinted s ks) (ht : ts.map Token.kind = ks) :
    ∃ s', TypedDerives ts s' ∧ s'.unplaced = s.unplaced := by
  cases h with
  | @bare type names pos ks hn =>
    obtain ⟨t, us, rfl, hk, ht⟩ := List.map_eq_cons_iff.1 ht
    exact ⟨.declare type names none t.pos, .bare hk (hn.derives ht), rfl⟩
  | @initialised type names e pos ks js hn he =>
    obtain ⟨t, _, rfl, hk, ht⟩ := List.map_eq_cons_iff.1 ht
    obtain ⟨us, _, rfl, hu, ht⟩ := List.map_eq_append_iff.1 ht
    obtain ⟨q, vs, rfl, hq, ht⟩ := List.map_eq_cons_iff.1 ht
    obtain ⟨e', hd, he⟩ := he.derives ht
    refine ⟨.declare type names (some e') t.pos, .initialised hk (hn.derives hu) hq hd, ?_⟩
    rw [Statement.unplaced, Option.map_some, he]
    rfl

/-- A declaration is read before a token that separates. -/
theorem Parse.typed_of_derives (h : TypedDerives ts s) (hb : Boundary rest) :
    typed (ts ++ rest) = .ok s rest := by
  cases h with
  | bare hk hn => exact typed_of_bare hk hn hb.nextIsNot_comma hb.stops.2
  | initialised hk hn hq he => exact typed_of_initialised hk hn hq he hb.stops

theorem ClausePrinted.derives (h : ClausePrinted s ks) (ht : ts.map Token.kind = ks) :
    ∃ s', ClauseDerives ts s' ∧ s'.unplaced = s.unplaced := by
  cases h with
  | declared hs =>
    obtain ⟨t, us, rfl, hk, ht⟩ := List.map_eq_cons_iff.1 ht
    obtain ⟨s', hd, he⟩ := hs.derives ht
    exact ⟨s', .declared hk hd, he⟩
  | computed h =>
    obtain ⟨o, us, c, e', rfl, _, _, _, hd, he⟩ := h.derives_in_parentheses ht
    exact ⟨.compute e' o.pos, .computed hd, by rw [Statement.unplaced, he]; rfl⟩

theorem Statement.endsBeforeComma_unplaced (s : Statement) :
    s.unplaced.endsBeforeComma = s.endsBeforeComma := by
  cases s with
  | declare type names initial pos => cases initial <;> rfl
  | _ => rfl

theorem ClausesPrinted.derives {initial step : Statement} {condition : Expr}
    (h : ClausesPrinted initial condition step ks) (ht : ts.map Token.kind = ks) :
    ∃ initial' condition' step', ClausesDerive ts initial' condition' step' ∧
      initial'.endsBeforeComma = true ∧ initial'.unplaced = initial.unplaced ∧
      condition'.unplaced = condition.unplaced ∧ step'.unplaced = step.unplaced := by
  obtain ⟨hb, hi, hc, hs⟩ := h
  obtain ⟨us, _, rfl, hu, ht⟩ := List.map_eq_append_iff.1 ht
  obtain ⟨c, _, rfl, hck, ht⟩ := List.map_eq_cons_iff.1 ht
  obtain ⟨vs, _, rfl, hv, ht⟩ := List.map_eq_append_iff.1 ht
  obtain ⟨c', ws, rfl, hck', ht⟩ := List.map_eq_cons_iff.1 ht
  obtain ⟨initial', hdi, hei⟩ := hi.derives hu
  obtain ⟨condition', hdc, hec⟩ := hc.derives hv
  obtain ⟨step', hds, hes⟩ := hs.derives ht
  refine ⟨initial', condition', step', .mk hdi hck hdc hck' hds, ?_, hei, hec, hes⟩
  rw [← Statement.endsBeforeComma_unplaced, hei, Statement.endsBeforeComma_unplaced, hb]

/-! ### Where a phrase begins -/

/-- Whether a printed declaration can begin with the token. -/
def TokenKind.opens : TokenKind → Bool
  | .symbol .openBrace => true
  | .symbol .openParen => true
  | k => k.beginsStatement

/-- What a declaration begins with separates it from the one before, and does
    not end the block or the program. -/
theorem TokenKind.separates_of_opens {k : TokenKind} (h : k.opens = true) :
    k.separates = true ∧ k ≠ .symbol .closeBrace ∧ k.isFinal = false := by
  cases k with
  | literal | name | ending => exact absurd h Bool.false_ne_true
  | symbol s => cases s <;> simp [opens, beginsStatement, separates, isFinal] at h ⊢
  | keyword w => cases w <;> simp [opens, beginsStatement, separates, isFinal] at h ⊢

namespace Phrase

theorem Printed.head_of_block {b : Block} (h : Printed (.block b) ks) :
    ∃ k js, ks = k :: js ∧ (k = .symbol .openBrace ∨ k = .keyword .pundok) := by
  cases h with
  | braces => exact ⟨_, _, rfl, .inl rfl⟩
  | marked => exact ⟨_, _, rfl, .inr rfl⟩

theorem Printed.head_of_statement (h : Printed (.statement s) ks) :
    ∃ k js, ks = k :: js ∧ k.opens = true ∧ k ≠ .keyword .mugna := by
  cases h with
  | print | read | choose | loop | loopInParentheses | compute =>
    exact ⟨_, _, rfl, rfl, fun h => nomatch h⟩
  | typed h => cases h <;> exact ⟨_, _, rfl, rfl, fun h => nomatch h⟩
  | nested h =>
    obtain ⟨k, js, rfl, rfl | rfl⟩ := h.head_of_block
    · exact ⟨_, _, rfl, rfl, fun h => nomatch h⟩
    · exact ⟨_, _, rfl, rfl, fun h => nomatch h⟩

theorem Printed.head_of_declaration (h : Printed (.declaration s) ks) :
    ∃ k js, ks = k :: js ∧ k.opens = true := by
  cases h with
  | announced => exact ⟨_, _, rfl, rfl⟩
  | plain h =>
    obtain ⟨k, js, rfl, hk, _⟩ := h.head_of_statement
    exact ⟨k, js, rfl, hk⟩

/-- A block begins with its brace, or with the keyword before it. -/
theorem Printed.cons_of_block {b : Block} (h : Printed (.block b) ks)
    (ht : ts.map Token.kind = ks) :
    ∃ t us, ts = t :: us ∧ (t.kind = .symbol .openBrace ∨ t.kind = .keyword .pundok) := by
  obtain ⟨k, js, rfl, hk⟩ := h.head_of_block
  obtain ⟨t, us, rfl, rfl, _⟩ := List.map_eq_cons_iff.1 ht
  exact ⟨t, us, rfl, hk⟩

theorem Printed.boundary_of_block {b : Block} (h : Printed (.block b) ks)
    (ht : ts.map Token.kind = ks) : Boundary (ts ++ rest) := by
  obtain ⟨t, us, rfl, hk | hk⟩ := h.cons_of_block ht
  · exact boundary_cons (by rw [hk]; rfl)
  · exact boundary_cons (by rw [hk]; rfl)

/-- Declarations begin with a token that separates, unless there are none, and
    then what follows does. -/
theorem Printed.boundary {ss : List Statement} (h : Printed (.declarations ss) ks)
    (ht : ts.map Token.kind = ks) (hb : Boundary rest) : Boundary (ts ++ rest) := by
  cases h with
  | done =>
    obtain rfl := List.map_eq_nil_iff.1 ht
    exact hb
  | more h _ =>
    obtain ⟨k, js, rfl, hk⟩ := h.head_of_declaration
    obtain ⟨us, vs, rfl, hu, _⟩ := List.map_eq_append_iff.1 ht
    obtain ⟨t, ws, rfl, rfl, _⟩ := List.map_eq_cons_iff.1 hu
    exact boundary_cons (TokenKind.separates_of_opens hk).1

/-! ### Phrases that are read back -/

/-- The rule for the phrase reads the stretch and gives the tree of the phrase,
    up to positions, when there are rounds enough for the length of the
    stretch. Only blocks end by themselves. -/
def Recovers : Phrase → List Token → Prop
  | .declaration s, ts => ∀ rounds rest, ts.length < rounds → Boundary rest →
    ∃ s', declarationWithin rounds (ts ++ rest) = .ok s' rest ∧ s'.unplaced = s.unplaced
  | .statement s, ts => ∀ rounds rest, ts.length ≤ rounds → Boundary rest →
    ∃ s', statementOf (declarationWithin rounds) (ts ++ rest) = .ok s' rest ∧
      s'.unplaced = s.unplaced
  | .choice s _, ts => ∀ rounds n pos rest, ts.length ≤ rounds → ts.length ≤ n →
    Boundary rest →
    ∃ s', choiceWithin (blockOf (declarationWithin rounds)) n pos (ts ++ rest) = .ok s' rest ∧
      s'.unplaced = s.unplaced
  | .block b, ts => ∀ rounds rest, ts.length ≤ rounds →
    ∃ b', blockOf (declarationWithin rounds) (ts ++ rest) = .ok b' rest ∧
      b'.unplaced = b.unplaced
  | .declarations ss, ts => ∀ rounds budget c rest, ts.length < rounds → ts.length < budget →
    c.kind = .symbol .closeBrace →
    ∃ ss', declarationsWithin (declarationWithin rounds) budget (ts ++ c :: rest) = .ok ss' rest ∧
      Statement.unplacedAll ss' = Statement.unplacedAll ss

variable {t : Token} {us vs : List Token} {b : Block} {e : Expr} {pos : Position}

theorem recovers_announced (hk : t.kind = .keyword .mugna) (h : TypedPrinted s ks)
    (ht : ts.map Token.kind = ks) : (declaration s).Recovers (t :: ts) := by
  intro rounds rest hn hb
  obtain ⟨s', hd, he⟩ := h.derives ht
  obtain ⟨n, rfl⟩ : ∃ n, rounds = n + 1 := ⟨rounds - 1, by omega⟩
  refine ⟨s', ?_, he⟩
  rw [declarationWithin, resuming_eq_ok, List.cons_append, bind_of_ok (accept_of_eq hk)]
  exact typed_of_derives hd hb

theorem recovers_plain (hk : t.kind ≠ .keyword .mugna) (h : (statement s).Recovers (t :: ts)) :
    (declaration s).Recovers (t :: ts) := by
  intro rounds rest hn hb
  obtain ⟨n, rfl⟩ : ∃ n, rounds = n + 1 := ⟨rounds - 1, by omega⟩
  obtain ⟨s', hs, he⟩ := h n rest (Nat.le_of_lt_succ hn) hb
  refine ⟨s', ?_, he⟩
  rw [declarationWithin, resuming_eq_ok, List.cons_append,
    bind_of_ok (accept_of_ne (nextIsNot_cons.2 hk))]
  exact hs

theorem recovers_print {c : Token} (hk : t.kind = .keyword .ipakita)
    (hc : c.kind = .symbol .colon) (h : Expr.Printed 0 e ks) (ht : ts.map Token.kind = ks) :
    (statement (.print e pos)).Recovers (t :: c :: ts) := by
  intro rounds rest _ hb
  obtain ⟨e', hd, he⟩ := h.derives ht
  refine ⟨.print e' t.pos, ?_, by rw [Statement.unplaced, he]; rfl⟩
  rw [statementOf, List.cons_append, bind_of_ok (peek_cons _ _), hk]
  dsimp only
  rw [bind_of_ok (skip_cons _ _), List.cons_append, bind_of_ok (expect_of_eq hc),
    bind_of_ok (expression_of_derives hd hb.stops)]
  rfl

theorem recovers_read {c : Token} {names : List String} (hk : t.kind = .keyword .dawat)
    (hc : c.kind = .symbol .colon) (h : NamesPrinted names ks) (ht : ts.map Token.kind = ks) :
    (statement (.read names pos)).Recovers (t :: c :: ts) := by
  intro rounds rest _ hb
  refine ⟨.read names t.pos, ?_, rfl⟩
  rw [statementOf, List.cons_append, bind_of_ok (peek_cons _ _), hk]
  dsimp only
  rw [bind_of_ok (skip_cons _ _), List.cons_append, bind_of_ok (expect_of_eq hc)]
  exact (bind_of_ok (names_of_derives (h.derives ht) hb.nextIsNot_comma)).trans rfl

theorem recovers_typed (h : TypedPrinted s ks) (ht : ts.map Token.kind = ks) :
    (statement s).Recovers ts := by
  intro rounds rest _ hb
  obtain ⟨s', hd, he⟩ := h.derives ht
  refine ⟨s', ?_, he⟩
  have hr := typed_of_derives hd hb
  have hk : ∃ t us type, ts = t :: us ∧ t.kind = .keyword (.scalar type) := by
    cases hd with
    | bare hk _ => exact ⟨_, _, _, rfl, hk⟩
    | initialised hk _ _ _ => exact ⟨_, _, _, rfl, hk⟩
  obtain ⟨t, us, type, rfl, hk⟩ := hk
  rw [statementOf, List.cons_append, bind_of_ok (peek_cons _ _), hk]
  exact hr

theorem recovers_choose (hk : t.kind = .keyword .kung) (h : (choice s s.pos).Recovers ts) :
    (statement s).Recovers (t :: ts) := by
  intro rounds rest hn hb
  rw [List.length_cons] at hn
  -- As many conditions are allowed as there are tokens left, which is more than enough.
  obtain ⟨s', hs, he⟩ := h rounds ((ts ++ rest).length + 1) t.pos rest (by omega)
    (by rw [List.length_append]; omega) hb
  refine ⟨s', ?_, he⟩
  rw [statementOf, List.cons_append, bind_of_ok (peek_cons _ _), hk]
  dsimp only
  rw [bind_of_ok (skip_cons _ _), bind_of_ok (get_eq_ok.2 ⟨rfl, rfl⟩)]
  exact hs

theorem recovers_loop {initial step : Statement} {condition : Expr} {js : List TokenKind}
    (hk : t.kind = .keyword .alangSa) (hc : ClausesPrinted initial condition step ks)
    (ht : ts.map Token.kind = ks) (hp : Printed (.block b) js) (hu : us.map Token.kind = js)
    (h : (block b).Recovers us) :
    (statement (.loop initial condition step b pos)).Recovers (t :: (ts ++ us)) := by
  intro rounds rest hn _
  rw [List.length_cons, List.length_append] at hn
  obtain ⟨initial', condition', step', hd, hi, hei, hec, hes⟩ := hc.derives ht
  obtain ⟨b', hb, heb⟩ := h rounds rest (by omega)
  refine ⟨.loop initial' condition' step' b' t.pos, ?_, ?_⟩
  · rw [statementOf, List.cons_append, bind_of_ok (peek_cons _ _), hk]
    dsimp only
    rw [bind_of_ok (skip_cons _ _), List.append_assoc, loop_of_bare hd.not_inParentheses,
      bind_of_ok (clauses_of_derives hd hi (hp.boundary_of_block hu))]
    exact (bind_of_ok hb).trans rfl
  · rw [Statement.unplaced, hei, hec, hes, heb, Statement.unplaced]

theorem recovers_loopInParentheses {initial step : Statement} {condition : Expr}
    {js : List TokenKind} {o c : Token} (hk : t.kind = .keyword .alangSa)
    (ho : o.kind = .symbol .openParen) (hc : ClausesPrinted initial condition step ks)
    (ht : ts.map Token.kind = ks) (hck : c.kind = .symbol .closeParen)
    (hp : Printed (.block b) js) (hu : us.map Token.kind = js) (h : (block b).Recovers us) :
    (statement (.loop initial condition step b pos)).Recovers (t :: o :: (ts ++ c :: us)) := by
  intro rounds rest hn _
  simp only [List.length_cons, List.length_append] at hn
  obtain ⟨initial', condition', step', hd, hi, hei, hec, hes⟩ := hc.derives ht
  obtain ⟨b', hb, heb⟩ := h rounds rest (by omega)
  -- The parentheses of the clauses are in pairs, so the block follows the first one's partner.
  have hin : clausesInParentheses (o :: (ts ++ c :: (us ++ rest))) = true := by
    obtain ⟨u, vs, rfl, huk⟩ := hp.cons_of_block hu
    exact clausesInParentheses_eq_true ho hd.passes hck huk
  refine ⟨.loop initial' condition' step' b' t.pos, ?_, ?_⟩
  · rw [statementOf, List.cons_append, bind_of_ok (peek_cons _ _), hk]
    dsimp only
    rw [bind_of_ok (skip_cons _ _), List.cons_append, List.append_assoc, List.cons_append,
      loop_of_parentheses hin, bind_of_ok (skip_cons _ _),
      bind_of_ok (clauses_of_derives hd hi (boundary_cons (by rw [hck]; rfl)))]
    dsimp only
    rw [bind_of_ok (expect_of_eq hck)]
    exact (bind_of_ok hb).trans rfl
  · rw [Statement.unplaced, hei, hec, hes, heb, Statement.unplaced]

theorem recovers_nested {ks : List TokenKind} (hp : Printed (.block b) ks)
    (ht : ts.map Token.kind = ks) (h : (block b).Recovers ts) :
    (statement (.block b)).Recovers ts := by
  intro rounds rest hn _
  obtain ⟨b', hb, heb⟩ := h rounds rest hn
  refine ⟨.block b', ?_, by rw [Statement.unplaced, heb, Statement.unplaced]⟩
  obtain ⟨t, us, rfl, hk | hk⟩ := hp.cons_of_block ht
  · rw [statementOf, List.cons_append, bind_of_ok (peek_cons _ _), hk]
    exact (bind_of_ok hb).trans rfl
  · rw [statementOf, List.cons_append, bind_of_ok (peek_cons _ _), hk]
    exact (bind_of_ok hb).trans rfl

theorem recovers_compute (h : Expr.Printed 0 e ks)
    (ht : ts.map Token.kind = .symbol .openParen :: (ks ++ [.symbol .closeParen])) :
    (statement (.compute e pos)).Recovers ts := by
  intro rounds rest _ hb
  obtain ⟨o, us, c, e', rfl, ho, _, _, hd, he⟩ := h.derives_in_parentheses ht
  refine ⟨.compute e' o.pos, ?_, by rw [Statement.unplaced, he]; rfl⟩
  have hr := computation_of_derives hd hb.stops
  rw [statementOf, List.cons_append, bind_of_ok (peek_cons _ _), ho]
  exact hr

/-! ### Conditions -/

theorem recovers_only {js : List TokenKind} (he : Expr.Printed 0 e ks)
    (ht : ts.map Token.kind = ks) (hp : Printed (.block b) js) (hu : us.map Token.kind = js)
    (h : (block b).Recovers us) :
    (choice (.choose e b none pos) pos).Recovers (ts ++ us) := by
  intro rounds n p rest hn hm hb
  obtain ⟨e', hd, hee⟩ := he.derives ht
  obtain ⟨b', hb', heb⟩ := h rounds rest (by rw [List.length_append] at hn; omega)
  have hl := List.length_pos_of_ne_nil hd.ne_nil
  rw [List.length_append] at hm
  obtain ⟨m, rfl⟩ : ∃ m, n = m + 1 := ⟨n - 1, by omega⟩
  refine ⟨.choose e' b' none p, ?_, by rw [Statement.unplaced, hee, heb]; rfl⟩
  rw [List.append_assoc, choiceWithin,
    bind_of_ok (expression_of_derives hd (hp.boundary_of_block hu).stops), bind_of_ok hb']
  -- What follows is not one of the keywords that go on with a condition.
  obtain ⟨t, ws, rfl, hs⟩ := hb
  rw [bind_of_ok (peek_cons _ _)]
  generalize t.kind = k at hs
  split
  · exact absurd hs Bool.false_ne_true
  · exact absurd hs Bool.false_ne_true
  · rfl

theorem recovers_otherwise {js : List TokenKind} {b' : Block}
    (he : Expr.Printed 0 e ks) (ht : ts.map Token.kind = ks) (hp : Printed (.block b) js)
    (hu : us.map Token.kind = js) (h : (block b).Recovers us)
    (hk : t.kind = .keyword .kungWala) (h' : (block b').Recovers vs) :
    (choice (.choose e b (some b') pos) pos).Recovers (ts ++ (us ++ t :: vs)) := by
  intro rounds n p rest hn hm _
  simp only [List.length_append, List.length_cons] at hn hm
  obtain ⟨e', hd, hee⟩ := he.derives ht
  obtain ⟨c, hc, hec⟩ := h rounds (t :: (vs ++ rest)) (by omega)
  obtain ⟨c', hc', hec'⟩ := h' rounds rest (by omega)
  obtain ⟨m, rfl⟩ : ∃ m, n = m + 1 := ⟨n - 1, by omega⟩
  refine ⟨.choose e' c (some c') p, ?_, ?_⟩
  · rw [List.append_assoc, List.append_assoc, List.cons_append, choiceWithin,
      bind_of_ok (expression_of_derives hd (hp.boundary_of_block hu).stops), bind_of_ok hc,
      bind_of_ok (peek_cons _ _), hk]
    dsimp only
    rw [bind_of_ok (skip_cons _ _), bind_of_ok hc']
    rfl
  · rw [Statement.unplaced, hee, hec, Block.unplacedAny, hec']
    rfl

theorem recovers_again {js : List TokenKind} {pos' : Position}
    (he : Expr.Printed 0 e ks) (ht : ts.map Token.kind = ks) (hp : Printed (.block b) js)
    (hu : us.map Token.kind = js) (h : (block b).Recovers us)
    (hk : t.kind = .keyword .kungDili) (hs : (choice s s.pos).Recovers vs) :
    (choice (.choose e b (some ⟨[s], pos'⟩) pos) pos).Recovers (ts ++ (us ++ t :: vs)) := by
  intro rounds n p rest hn hm hb
  simp only [List.length_append, List.length_cons] at hn hm
  obtain ⟨e', hd, hee⟩ := he.derives ht
  obtain ⟨c, hc, hec⟩ := h rounds (t :: (vs ++ rest)) (by omega)
  obtain ⟨m, rfl⟩ : ∃ m, n = m + 1 := ⟨n - 1, by omega⟩
  obtain ⟨s', hs', hes⟩ := hs rounds m t.pos rest (by omega) (by omega) hb
  refine ⟨.choose e' c (some ⟨[s'], t.pos⟩) p, ?_, ?_⟩
  · rw [List.append_assoc, List.append_assoc, List.cons_append, choiceWithin,
      bind_of_ok (expression_of_derives hd (hp.boundary_of_block hu).stops), bind_of_ok hc,
      bind_of_ok (peek_cons _ _), hk]
    dsimp only
    rw [bind_of_ok (skip_cons _ _), bind_of_ok hs']
    rfl
  · rw [Statement.unplaced, hee, hec, Block.unplacedAny, Block.unplaced,
      Statement.unplacedAll, hes]
    rfl

/-! ### Blocks -/

theorem recovers_braces {o c : Token} {ss : List Statement} (ho : o.kind = .symbol .openBrace)
    (h : (declarations ss).Recovers ts) (hc : c.kind = .symbol .closeBrace) :
    (block ⟨ss, pos⟩).Recovers (o :: (ts ++ [c])) := by
  intro rounds rest hn
  simp only [List.length_cons, List.length_append, List.length_nil] at hn
  obtain ⟨ss', hs, hes⟩ := h rounds ((ts ++ c :: rest).length + 1) c rest (by omega)
    (by rw [List.length_append]; omega) hc
  have ha : accept (.keyword .pundok) (o :: (ts ++ c :: rest)) = .ok none _ :=
    accept_of_ne (by rw [nextIsNot_cons, ho]; exact fun h => nomatch h)
  refine ⟨⟨ss', o.pos⟩, ?_, by rw [Block.unplaced, hes, Block.unplaced]⟩
  rw [List.cons_append, List.append_assoc, List.singleton_append, blockOf,
    bind_of_ok (peek_cons _ _), bind_of_ok ha, bind_of_ok (expect_of_eq ho),
    bind_of_ok (get_eq_ok.2 ⟨rfl, rfl⟩), bind_of_ok hs]
  rfl

theorem recovers_marked {o c : Token} {ss : List Statement} (hk : t.kind = .keyword .pundok)
    (ho : o.kind = .symbol .openBrace) (h : (declarations ss).Recovers ts)
    (hc : c.kind = .symbol .closeBrace) :
    (block ⟨ss, pos⟩).Recovers (t :: o :: (ts ++ [c])) := by
  intro rounds rest hn
  simp only [List.length_cons, List.length_append, List.length_nil] at hn
  obtain ⟨ss', hs, hes⟩ := h rounds ((ts ++ c :: rest).length + 1) c rest (by omega)
    (by rw [List.length_append]; omega) hc
  refine ⟨⟨ss', t.pos⟩, ?_, by rw [Block.unplaced, hes, Block.unplaced]⟩
  rw [List.cons_append, List.cons_append, List.append_assoc, List.singleton_append, blockOf,
    bind_of_ok (peek_cons _ _), bind_of_ok (accept_of_eq hk), bind_of_ok (expect_of_eq ho),
    bind_of_ok (get_eq_ok.2 ⟨rfl, rfl⟩), bind_of_ok hs]
  rfl

theorem recovers_done : (declarations []).Recovers [] := by
  intro rounds budget c rest _ hn hc
  obtain ⟨n, rfl⟩ : ∃ n, budget = n + 1 := ⟨budget - 1, by omega⟩
  refine ⟨[], ?_, rfl⟩
  rw [List.nil_append, declarationsWithin, bind_of_ok (peek_cons _ _), if_pos hc]
  rfl

theorem recovers_more {ss : List Statement} {js : List TokenKind}
    (hk : t.kind.opens = true) (h : (declaration s).Recovers (t :: ts))
    (hp : Printed (.declarations ss) js) (hu : us.map Token.kind = js)
    (hs : (declarations ss).Recovers us) :
    (declarations (s :: ss)).Recovers (t :: ts ++ us) := by
  intro rounds budget c rest hn hm hc
  simp only [List.length_append, List.length_cons] at hn hm
  obtain ⟨n, rfl⟩ : ∃ n, budget = n + 1 := ⟨budget - 1, by omega⟩
  -- After the declaration comes the next one, or the brace, and both separate.
  have hb : Boundary (us ++ c :: rest) := hp.boundary hu (boundary_cons (by rw [hc]; rfl))
  obtain ⟨s', hd, hes⟩ := h rounds (us ++ c :: rest) (by rw [List.length_cons]; omega) hb
  obtain ⟨ss', hds, hess⟩ := hs rounds n c rest (by omega) (by omega) hc
  obtain ⟨_, hne, hf⟩ := TokenKind.separates_of_opens hk
  refine ⟨s' :: ss', ?_, by rw [Statement.unplacedAll, hes, hess, Statement.unplacedAll]⟩
  rw [List.append_assoc, List.cons_append, declarationsWithin, bind_of_ok (peek_cons _ _),
    if_neg hne, hf, if_neg Bool.false_ne_true]
  exact (bind_of_ok hd).trans ((bind_of_ok hds).trans rfl)

/-- Whatever is printed is read back. -/
theorem Printed.recovers {p : Phrase} (h : p.Printed ks) (ht : ts.map Token.kind = ks) :
    p.Recovers ts := by
  induction h generalizing ts with
  | announced h =>
    obtain ⟨t, us, rfl, hk, ht⟩ := List.map_eq_cons_iff.1 ht
    exact recovers_announced hk h ht
  | plain h ih =>
    -- The statement does not begin with `MUGNA`, which would be read as a declaration.
    obtain ⟨k, js, rfl, _, hk⟩ := h.head_of_statement
    have hs := ih ht
    obtain ⟨t, us, rfl, rfl, ht⟩ := List.map_eq_cons_iff.1 ht
    exact recovers_plain hk hs
  | print h =>
    obtain ⟨t, _, rfl, hk, ht⟩ := List.map_eq_cons_iff.1 ht
    obtain ⟨c, us, rfl, hc, ht⟩ := List.map_eq_cons_iff.1 ht
    exact recovers_print hk hc h ht
  | read h =>
    obtain ⟨t, _, rfl, hk, ht⟩ := List.map_eq_cons_iff.1 ht
    obtain ⟨c, us, rfl, hc, ht⟩ := List.map_eq_cons_iff.1 ht
    exact recovers_read hk hc h ht
  | typed h => exact recovers_typed h ht
  | choose _ ih =>
    obtain ⟨t, us, rfl, hk, ht⟩ := List.map_eq_cons_iff.1 ht
    exact recovers_choose hk (ih ht)
  | loop hc hp ih =>
    obtain ⟨t, _, rfl, hk, ht⟩ := List.map_eq_cons_iff.1 ht
    obtain ⟨us, vs, rfl, hu, hv⟩ := List.map_eq_append_iff.1 ht
    exact recovers_loop hk hc hu hp hv (ih hv)
  | loopInParentheses hc hp ih =>
    obtain ⟨t, _, rfl, hk, ht⟩ := List.map_eq_cons_iff.1 ht
    obtain ⟨o, _, rfl, ho, ht⟩ := List.map_eq_cons_iff.1 ht
    obtain ⟨us, _, rfl, hu, ht⟩ := List.map_eq_append_iff.1 ht
    obtain ⟨c, vs, rfl, hck, hv⟩ := List.map_eq_cons_iff.1 ht
    exact recovers_loopInParentheses hk ho hc hu hck hp hv (ih hv)
  | nested hp ih => exact recovers_nested hp ht (ih ht)
  | compute h => exact recovers_compute h ht
  | only he hp ih =>
    obtain ⟨us, vs, rfl, hu, hv⟩ := List.map_eq_append_iff.1 ht
    exact recovers_only he hu hp hv (ih hv)
  | otherwise he hp _ ih ih' =>
    obtain ⟨us, _, rfl, hu, ht⟩ := List.map_eq_append_iff.1 ht
    obtain ⟨vs, _, rfl, hv, ht⟩ := List.map_eq_append_iff.1 ht
    obtain ⟨t, ws, rfl, hk, hw⟩ := List.map_eq_cons_iff.1 ht
    exact recovers_otherwise he hu hp hv (ih hv) hk (ih' hw)
  | again he hp _ ih ih' =>
    obtain ⟨us, _, rfl, hu, ht⟩ := List.map_eq_append_iff.1 ht
    obtain ⟨vs, _, rfl, hv, ht⟩ := List.map_eq_append_iff.1 ht
    obtain ⟨t, ws, rfl, hk, hw⟩ := List.map_eq_cons_iff.1 ht
    exact recovers_again he hu hp hv (ih hv) hk (ih' hw)
  | braces _ ih =>
    obtain ⟨o, _, rfl, ho, ht⟩ := List.map_eq_cons_iff.1 ht
    obtain ⟨us, _, rfl, hu, ht⟩ := List.map_eq_append_iff.1 ht
    obtain ⟨c, rfl, hc⟩ := List.map_eq_singleton_iff.1 ht
    exact recovers_braces ho (ih hu) hc
  | marked _ ih =>
    obtain ⟨t, _, rfl, hk, ht⟩ := List.map_eq_cons_iff.1 ht
    obtain ⟨o, _, rfl, ho, ht⟩ := List.map_eq_cons_iff.1 ht
    obtain ⟨us, _, rfl, hu, ht⟩ := List.map_eq_append_iff.1 ht
    obtain ⟨c, rfl, hc⟩ := List.map_eq_singleton_iff.1 ht
    exact recovers_marked hk ho (ih hu) hc
  | done =>
    obtain rfl := List.map_eq_nil_iff.1 ht
    exact recovers_done
  | more h hp ih ihs =>
    obtain ⟨k, js, rfl, hk⟩ := h.head_of_declaration
    obtain ⟨us, vs, rfl, hu, hv⟩ := List.map_eq_append_iff.1 ht
    have hd := ih hu
    obtain ⟨t, us, rfl, rfl, _⟩ := List.map_eq_cons_iff.1 hu
    exact recovers_more hk hd hp hv (ihs hv)

end Phrase

/-! ### Programs -/

theorem Parse.declaration_of_printed (h : Phrase.Printed (.declaration s) ks)
    (ht : ts.map Token.kind = ks) (hb : Boundary rest) :
    ∃ s', declaration (ts ++ rest) = .ok s' rest ∧ s'.unplaced = s.unplaced :=
  h.recovers ht ((ts ++ rest).length + 1) rest (by rw [List.length_append]; omega) hb

/-- The statements of a program are read back up to the keyword that ends
    it. -/
theorem Parse.bodyWithin_of_printed {program : Program} {budget : Nat} {c : Token}
    (rest : List Token) (h : Phrase.Printed (.declarations program) ks)
    (ht : ts.map Token.kind = ks)
    (hn : ts.length < budget) (hc : c.kind = .keyword .katapusan) :
    ∃ program', bodyWithin budget (ts ++ c :: rest) = .ok program' (c :: rest) ∧
      Statement.unplacedAll program' = Statement.unplacedAll program := by
  induction program generalizing ks ts budget with
  | nil =>
    obtain ⟨n, rfl⟩ : ∃ n, budget = n + 1 := ⟨budget - 1, by omega⟩
    cases h
    obtain rfl := List.map_eq_nil_iff.1 ht
    refine ⟨[], ?_, rfl⟩
    rw [List.nil_append, bodyWithin, bind_of_ok (peek_cons _ _), hc]
    rfl
  | cons s program ih =>
    obtain ⟨n, rfl⟩ : ∃ n, budget = n + 1 := ⟨budget - 1, by omega⟩
    cases h with
    | more hs hp =>
      obtain ⟨us, vs, rfl, hu, hv⟩ := List.map_eq_append_iff.1 ht
      have hb : Boundary (vs ++ c :: rest) := hp.boundary hv (boundary_cons (by rw [hc]; rfl))
      obtain ⟨s', hd, hes⟩ := declaration_of_printed hs hu hb
      obtain ⟨k, js, rfl, hk⟩ := hs.head_of_declaration
      obtain ⟨t, us, rfl, rfl, _⟩ := List.map_eq_cons_iff.1 hu
      simp only [List.length_append, List.length_cons] at hn
      have hn' : vs.length < n := by omega
      obtain ⟨program', hr, her⟩ := ih hp hv hn'
      obtain ⟨_, _, hf⟩ := TokenKind.separates_of_opens hk
      refine ⟨s' :: program', ?_, by rw [Statement.unplacedAll, hes, her, Statement.unplacedAll]⟩
      rw [List.append_assoc, List.cons_append, bodyWithin, bind_of_ok (peek_cons _ _), hf,
        if_neg Bool.false_ne_true]
      exact (bind_of_ok hd).trans ((bind_of_ok hr).trans rfl)

/-- However a program is printed, between the keywords that begin and end it,
    it is read back. -/
theorem Program.parse_of_printed {program : Program} {tokens : List Token}
    (h : Phrase.Printed (.declarations program) ks)
    (ht : tokens.map Token.kind = .keyword .sugod :: (ks ++ [.keyword .katapusan, .ending])) :
    ∃ parsed, Program.parse tokens = .ok parsed ∧
      Statement.unplacedAll parsed = Statement.unplacedAll program := by
  obtain ⟨t, _, rfl, hk, ht⟩ := List.map_eq_cons_iff.1 ht
  obtain ⟨us, _, rfl, hu, ht⟩ := List.map_eq_append_iff.1 ht
  obtain ⟨c, _, rfl, hc, ht⟩ := List.map_eq_cons_iff.1 ht
  obtain ⟨f, rfl, hf⟩ := List.map_eq_singleton_iff.1 ht
  have hn : us.length < (us ++ [c, f]).length + 1 := by
    rw [List.length_append]
    omega
  obtain ⟨parsed, hp, he⟩ := bodyWithin_of_printed [f] h hu hn hc
  have hb : beginning (t :: (us ++ [c, f])) = .ok () (us ++ [c, f]) := by
    rw [beginning, bind_of_ok (peek_cons _ _), if_pos hk, skip_cons]
  have hcl : conclusion [c, f] = .ok () [f] := by
    rw [conclusion, bind_of_ok (peek_cons _ _), if_pos hc, bind_of_ok (skip_cons _ _),
      bind_of_ok (peek_cons _ _), if_pos hf]
    rfl
  refine ⟨parsed, ?_, he⟩
  rw [Program.parse, Parse.program, bind_of_ok hb, bind_of_ok (get_eq_ok.2 ⟨rfl, rfl⟩),
    bind_of_ok hp, bind_of_ok hcl]
  rfl

/-- A printed expression is read back before every token that does not go on
    with it. -/
theorem Parse.expression_of_printed {e : Expr} (h : Expr.Printed 0 e ks)
    (ht : ts.map Token.kind = ks) (hs : Rule.expression.Stops rest) :
    ∃ e', expression (ts ++ rest) = .ok e' rest ∧ e'.unplaced = e.unplaced := by
  obtain ⟨e', hd, he⟩ := h.derives ht
  exact ⟨e', expression_of_derives hd hs, he⟩

/-- The same for every level, with an expression that is printed at the place
    of the level. -/
theorem Parse.operation_of_printed {e : Expr} {l : Level} (h : Expr.Printed l.rank e ks)
    (ht : ts.map Token.kind = ks) (hs : (Rule.level l).Stops rest) :
    ∃ e', operation l (ts ++ rest) = .ok e' rest ∧ e'.unplaced = e.unplaced := by
  obtain ⟨e', hd, he⟩ := h.derives ht
  rw [Rule.ofRank_rank] at hd
  exact ⟨e', operation_of_derives hd hs, he⟩

/-- The round trip: every program without empty lists of names, with proper
    clauses in its loops and without the null value can be printed, and however
    it is printed, it is read back up to positions. So is every expression
    without the null value, as a whole or at one of the levels. -/
theorem Program.roundTrip :
    (∀ program : Program, Statement.PrintableAll program →
      (∃ ks, Phrase.Printed (.declarations program) ks) ∧
      ∀ (ks : List TokenKind) (tokens : List Token), Phrase.Printed (.declarations program) ks →
        tokens.map Token.kind = .keyword .sugod :: (ks ++ [.keyword .katapusan, .ending]) →
        ∃ parsed, Program.parse tokens = .ok parsed ∧
          Statement.unplacedAll parsed = Statement.unplacedAll program) ∧
    (∀ e : Expr, e.Printable →
      (∀ place, ∃ ks, Expr.Printed place e ks) ∧
      (∀ (ks : List TokenKind) (ts rest : List Token), Expr.Printed 0 e ks →
        ts.map Token.kind = ks → Rule.expression.Stops rest →
        ∃ e', Parse.expression (ts ++ rest) = .ok e' rest ∧ e'.unplaced = e.unplaced) ∧
      (∀ (l : Level) (ks : List TokenKind) (ts rest : List Token), Expr.Printed l.rank e ks →
        ts.map Token.kind = ks → (Rule.level l).Stops rest →
        ∃ e', Parse.operation l (ts ++ rest) = .ok e' rest ∧ e'.unplaced = e.unplaced)) := by
  refine ⟨fun program h => ⟨Statement.exists_printed_all program h, ?_⟩,
    fun e h => ⟨Expr.exists_printed h, ?_, ?_⟩⟩
  · intro ks tokens hp ht
    exact Program.parse_of_printed hp ht
  · intro ks ts rest hp ht hs
    exact Parse.expression_of_printed hp ht hs
  · intro l ks ts rest hp ht hs
    exact Parse.operation_of_printed hp ht hs

/-- A difference that is taken away: it needs its parentheses. -/
def nestedDifference : Expr :=
  .binary .sub (.var "a" .nowhere)
    (.binary .sub (.var "b" .nowhere) (.var "c" .nowhere) .nowhere) .nowhere

/-- The tokens of `nestedDifference`. -/
def nestedDifferenceTokens : List Token := inColumns
  [.name "a", .symbol .minus, .symbol .openParen, .name "b", .symbol .minus, .name "c",
   .symbol .closeParen]

/-- The counting program can be printed, and as it is printed here it is read
    back, and so is a nested difference, also as a sum, before the end of the
    text. -/
theorem Program.roundTrip_counting : Statement.PrintableAll counting ∧
    (∃ parsed, Program.parse countingTokens = .ok parsed ∧
      Statement.unplacedAll parsed = Statement.unplacedAll counting) ∧
    nestedDifference.Printable ∧
    (∃ e', Parse.expression (nestedDifferenceTokens ++ [⟨.ending, "", .nowhere⟩]) =
      .ok e' [⟨.ending, "", .nowhere⟩] ∧ e'.unplaced = nestedDifference.unplaced) ∧
    (∃ e', Parse.operation .term (nestedDifferenceTokens ++ [⟨.ending, "", .nowhere⟩]) =
      .ok e' [⟨.ending, "", .nowhere⟩] ∧ e'.unplaced = nestedDifference.unplaced) := by
  have hc : Statement.PrintableAll counting := by
    simp [counting, Statement.PrintableAll, Statement.Printable, Statement.IsClause,
      Statement.endsBeforeComma, Block.Printable, Block.PrintableAny, Expr.Printable]
  have hl : Phrase.Printed (.declaration (counting.get ⟨0, by decide⟩)) _ :=
    .plain (.loopInParentheses
      (.mk rfl (.declared (.initialised .last (.literal (l := .integer 0) rfl)))
        (.binary (by decide) .var (.literal (l := .integer 3) rfl))
        (.computed (.assign (.binary (by decide) .var (.literal (l := .integer 1) rfl)))))
      (.braces (.more (.plain (.print
        (.binary (by decide) .var (.literal (l := .text "!") rfl)))) .done)))
  have hk : Phrase.Printed (.declaration (counting.get ⟨1, by decide⟩)) _ :=
    .plain (.choose (.again (.assign (.binary (by decide) .var .var))
      (.braces .done) (.only (.unary (by decide) .var) (.marked .done))))
  have hp : Phrase.Printed (.declarations counting) _ := .more hl (.more hk .done)
  have hd : nestedDifference.Printable := ⟨trivial, trivial, trivial⟩
  have hdp : ∀ place ≤ 6, Expr.Printed place nestedDifference _ := fun place h =>
    .binary h .var (.parentheses (by decide) (.binary (by decide) .var .var))
  have hb : Boundary [(⟨.ending, "", .nowhere⟩ : Token)] := boundary_cons rfl
  refine ⟨hc, (Program.roundTrip.1 counting hc).2 _ countingTokens hp rfl, hd, ?_, ?_⟩
  · exact (Program.roundTrip.2 nestedDifference hd).2.1 _ nestedDifferenceTokens _
      (hdp 0 (by decide)) rfl hb.stops
  · exact (Program.roundTrip.2 nestedDifference hd).2.2 .term _ nestedDifferenceTokens _
      (hdp 6 (by decide)) rfl (hb.stops.1.mono (by decide))

end Tudlo
