import Tudlo.Proofs.Grammar.Sequels

/-!
# Chains of conditions

Conditions with their blocks can follow one another, each but the first after a keyword of its
own, and in the end there may be a block for the case that none of the conditions holds. There
is no statement for such a *chain*. It is read as a statement with one condition, and what
is done otherwise is a block with the rest of the chain, which is read in the same way
(`Branch.nest`).

* `ChainDerives`: the tokens of a chain;
* `Parse.choiceWithin_of_chain`: how they are read.
-/

namespace Tudlo

/-- A condition with its block, and where the keyword before them stands. -/
structure Branch where
  /-- The position of the keyword. -/
  pos : Position
  /-- The condition. -/
  condition : Expr
  /-- What is done when the condition holds. -/
  body : Block

/-- A branch and others after it as one statement, with what is done in the end. Each of the
    others is in a block of its own, inside the one before. -/
def Branch.nest (otherwise : Option Block) : Branch → List Branch → Statement
  | b, [] => .choose b.condition b.body otherwise b.pos
  | b, c :: cs => .choose b.condition b.body (some ⟨[c.nest otherwise cs], c.pos⟩) b.pos

/-- The keyword and the tokens after it are a branch: the tokens are a condition and then a
    block. -/
inductive BranchDerives : Token → List Token → Branch → Prop
  | mk {k : Token} {ts us : List Token} {e : Expr} {b : Block}
      (he : Parse.expression ts = .ok e []) (hb : Parse.block us = .ok b []) :
      BranchDerives k (ts ++ us) ⟨k.pos, e, b⟩

/-- The keyword and the tokens after it are a branch, others after it, each with a keyword of
    its own, and what is done in the end, if there is something. -/
inductive ChainDerives : Token → List Token → Branch → List Branch → Option Block → Prop
  | last {k : Token} {ts : List Token} {b : Branch} (h : BranchDerives k ts b) :
      ChainDerives k ts b [] none
  | otherwise {k w : Token} {ts us : List Token} {b : Branch} {body : Block}
      (h : BranchDerives k ts b) (hw : w.kind = .keyword .kungWala)
      (hb : Parse.block us = .ok body []) : ChainDerives k (ts ++ w :: us) b [] (some body)
  | more {k d : Token} {ts us : List Token} {b c : Branch} {cs : List Branch}
      {otherwise : Option Block} (h : BranchDerives k ts b) (hd : d.kind = .keyword .kungDili)
      (hc : ChainDerives d us c cs otherwise) : ChainDerives k (ts ++ d :: us) b (c :: cs) otherwise

/-- A chain ends here: there is a last block, or the next token does not go on with it. -/
def ChainEnds (otherwise : Option Block) (rest : List Token) : Prop :=
  otherwise = none → ∃ t us, rest = t :: us ∧
    t.kind ≠ .keyword .kungDili ∧ t.kind ≠ .keyword .kungWala

theorem ChainDerives.length_le {k : Token} {ts : List Token} {b : Branch} {bs : List Branch}
    {otherwise : Option Block} (h : ChainDerives k ts b bs otherwise) : bs.length ≤ ts.length := by
  induction h with
  | last _ => exact Nat.zero_le _
  | otherwise _ _ _ => exact Nat.zero_le _
  | more _ _ _ ih =>
    rw [List.length_cons, List.length_append, List.length_cons]
    omega

theorem BranchDerives.pos_eq {k : Token} {ts : List Token} {b : Branch}
    (h : BranchDerives k ts b) : b.pos = k.pos := by
  cases h
  rfl

theorem ChainDerives.pos_eq {k : Token} {ts : List Token} {b : Branch} {bs : List Branch}
    {otherwise : Option Block} (h : ChainDerives k ts b bs otherwise) : b.pos = k.pos := by
  cases h with
  | last h => exact h.pos_eq
  | otherwise h _ _ => exact h.pos_eq
  | more h _ _ => exact h.pos_eq

namespace Parse

variable {ts vs rest : List Token} {k : Token} {b : Branch} {n : Nat}

/-- A branch is read in the same way whatever follows it. -/
theorem read_of_branch (h : BranchDerives k ts b) (hn : (ts ++ vs).length < n) :
    ∃ mid, expression (ts ++ vs) = .ok b.condition mid ∧
      blockOf (declarationWithin n) mid = .ok b.body vs := by
  cases h with
  | @mk ts us e body he hb =>
    have hm : block (us ++ vs) = .ok body vs := block_append hb vs
    -- The block ends the condition, as it begins with a brace or a keyword.
    obtain ⟨u, us, rfl, hu⟩ := cons_of_block ((List.append_nil us).symm ▸ hb)
    rw [List.append_assoc] at hn ⊢
    refine ⟨(u :: us) ++ vs, ?_, blockOf_of_block hm ?_⟩
    · exact expression_of_derives (expression_reads.whole he) (boundary_of_opensBlock hu).stops
    · rw [List.length_append] at hn
      omega

/-- A chain is read as nested statements. -/
theorem choiceWithin_of_chain {bs : List Branch} {otherwise : Option Block} {rounds : Nat}
    (h : ChainDerives k ts b bs otherwise) (hr : ChainEnds otherwise rest)
    (hn : (ts ++ rest).length < n) (hl : bs.length < rounds) :
    choiceWithin (blockOf (declarationWithin n)) rounds b.pos (ts ++ rest) =
      .ok (b.nest otherwise bs) rest := by
  obtain ⟨rounds, rfl⟩ : ∃ r, rounds = r + 1 := ⟨rounds - 1, by omega⟩
  induction h generalizing rounds with
  | last h =>
    obtain ⟨mid, he, hb⟩ := read_of_branch h hn
    obtain ⟨t, us, rfl, hd, hw⟩ := hr rfl
    rw [choiceWithin, bind_of_ok he, bind_of_ok hb, bind_of_ok (peek_cons t us), Branch.nest]
    generalize t.kind = kind at hd hw
    split
    · exact absurd rfl hd
    · exact absurd rfl hw
    · rfl
  | @otherwise k w ts us b body h hw hb' =>
    rw [List.append_assoc, List.cons_append] at hn ⊢
    obtain ⟨mid, he, hb⟩ := read_of_branch h hn
    rw [choiceWithin, bind_of_ok he, bind_of_ok hb, bind_of_ok (peek_cons w _), hw, Branch.nest]
    rw [List.length_append, List.length_cons] at hn
    have hm : blockOf (declarationWithin n) (us ++ rest) = .ok body rest :=
      blockOf_of_block (block_append hb' rest) (by omega)
    exact (bind_of_ok (skip_cons w _)).trans (bind_of_ok hm)
  | @more k d ts us b c cs otherwise h hd hc ih =>
    rw [List.append_assoc, List.cons_append] at hn ⊢
    obtain ⟨mid, he, hb⟩ := read_of_branch h hn
    rw [choiceWithin, bind_of_ok he, bind_of_ok hb, bind_of_ok (peek_cons d _), hd, Branch.nest]
    rw [List.length_append, List.length_cons] at hn
    rw [List.length_cons] at hl
    obtain ⟨rounds, rfl⟩ : ∃ r, rounds = r + 1 := ⟨rounds - 1, by omega⟩
    have hm := ih hr (by omega) rounds (Nat.lt_of_succ_lt_succ hl)
    rw [hc.pos_eq] at hm ⊢
    exact (bind_of_ok (skip_cons d _)).trans (bind_of_ok hm)

theorem statement_of_kung (hk : k.kind = .keyword .kung) (ts : List Token) :
    statement (k :: ts) =
      choiceWithin (blockOf (declarationWithin (ts.length + 2))) (ts.length + 1) k.pos ts := by
  rw [statement, bind_of_ok (get_eq_ok.2 ⟨rfl, rfl⟩), statementOf, bind_of_ok (peek_cons _ _), hk]
  exact bind_of_ok (skip_cons _ _)

/-- A statement that begins with a condition is a chain of all the branches that follow. -/
theorem statement_of_chain {bs : List Branch} {otherwise : Option Block}
    (hk : k.kind = .keyword .kung) (h : ChainDerives k ts b bs otherwise)
    (hr : ChainEnds otherwise rest) :
    statement (k :: (ts ++ rest)) = .ok (b.nest otherwise bs) rest := by
  have hl := h.length_le
  rw [statement_of_kung hk, ← h.pos_eq]
  exact choiceWithin_of_chain h hr (by omega) (by rw [List.length_append]; omega)

end Parse

end Tudlo
