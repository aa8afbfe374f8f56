import Mathlib.Order.Basic
import Tudlo.Proofs.Report.Location

/-!
# Errors come in the order of the text

A check goes through the text once, from the front to the back, and so do the
positions of the errors that it finds: by line, and within a line by column.

The tokens of a text come in that order (`Lexeme.tokens_inOrder`). An error is placed
at a token between the start of the declaration that fails and the place from where
the check goes on, and the errors that come later are at tokens from there on. So no
error is before the one found earlier (`Parse.errorsFrom_errorsWithin`), though both may
be at the same token.
-/

namespace Tudlo

/-! ### Positions -/

/-- Positions are ordered by line, and those on one line by column. -/
instance : Preorder Position where
  le p q := p.line < q.line ∨ p.line = q.line ∧ p.column ≤ q.column
  le_refl p := .inr ⟨rfl, Nat.le_refl _⟩
  le_trans p q r hpq hqr := by omega

namespace Position

theorem le_iff {p q : Position} :
    p ≤ q ↔ p.line < q.line ∨ p.line = q.line ∧ p.column ≤ q.column :=
  Iff.rfl

theorem le_advance (p : Position) (c : Char) : p ≤ p.advance c := by
  rw [advance, le_iff]
  split
  · exact .inl (Nat.lt_succ_self _)
  · exact .inr ⟨rfl, Nat.le_succ _⟩

/-- Walking over a text only leads forward. -/
theorem le_after (p : Position) (cs : List Char) : p ≤ p.after cs := by
  induction cs generalizing p with
  | nil => exact le_refl p
  | cons c cs ih => exact (p.le_advance c).trans (ih (p.advance c))

end Position

/-! ### Tokens -/

/-- No token is before one that comes earlier in the list. -/
def InOrder (ts : List Token) : Prop :=
  ts.Pairwise fun t u => t.pos ≤ u.pos

variable {ts us rest : List Token} {t u : Token}

theorem InOrder.le_of_mem (h : InOrder (t :: ts)) (hu : u ∈ t :: ts) : t.pos ≤ u.pos := by
  rcases List.mem_cons.1 hu with rfl | hu
  · exact le_refl _
  · exact (List.pairwise_cons.1 h).1 u hu

theorem InOrder.of_suffix (h : InOrder ts) (hs : rest <:+ ts) : InOrder rest :=
  h.sublist hs.sublist

/-- Lexemes that start at `p` make tokens in order, from `p` on. -/
theorem Lexeme.tokens_inOrder (p : Position) (lexemes : List Lexeme) :
    InOrder (tokens p lexemes) ∧ ∀ t ∈ tokens p lexemes, p ≤ t.pos := by
  fun_induction tokens p lexemes with
  | case1 p => exact ⟨List.pairwise_singleton _ _, by simp⟩
  | case2 p l rest kind h ih =>
    have hle : ∀ t ∈ tokens (p.after l.text) rest, p ≤ t.pos :=
      fun t ht => (p.le_after l.text).trans (ih.2 t ht)
    exact ⟨List.pairwise_cons.2 ⟨hle, ih.1⟩, List.forall_mem_cons.2 ⟨le_refl p, hle⟩⟩
  | case3 p l rest h ih =>
    exact ⟨ih.1, fun t ht => (p.le_after l.text).trans (ih.2 t ht)⟩

theorem inOrder_of_scan {source : String} (h : scan source = .ok ts) : InOrder ts := by
  obtain ⟨ls, -, -, rfl⟩ := pieces_of_scan h
  exact (Lexeme.tokens_inOrder .start ls).1

/-! ### Errors -/

/-- The errors are in order, and none of them is before the first token of `ts`. -/
structure ErrorsFrom (ts : List Token) (errors : List SyntaxError) : Prop where
  from_head : ∀ t ∈ ts.head?, ∀ e ∈ errors, t.pos ≤ e.pos
  inOrder : errors.Pairwise fun e f => e.pos ≤ f.pos

theorem ErrorsFrom.nil (ts : List Token) : ErrorsFrom ts [] where
  from_head _ _ _ he := absurd he List.not_mem_nil
  inOrder := .nil

/-- Errors found in what is left of the tokens. -/
theorem ErrorsFrom.of_suffix {errors : List SyntaxError} (hts : InOrder ts) (hs : rest <:+ ts)
    (hne : rest ≠ []) (h : ErrorsFrom rest errors) : ErrorsFrom ts errors where
  from_head t ht e he := by
    obtain ⟨u, us, rfl⟩ := List.exists_cons_of_ne_nil hne
    obtain ⟨vs, rfl⟩ := List.head?_eq_some_iff.1 ht
    exact (hts.le_of_mem (hs.subset List.mem_cons_self)).trans (h.from_head u rfl e he)
  inOrder := h.inOrder

/-- One more error in front, at a token that was passed before the others were
    found. -/
theorem ErrorsFrom.cons {errors : List SyntaxError} {e : SyntaxError} (hts : InOrder ts)
    (hu : u :: us <:+ ts) (he : u.pos = e.pos) (hs : rest <:+ u :: us) (hne : rest ≠ [])
    (h : ErrorsFrom rest errors) : ErrorsFrom ts (e :: errors) := by
  have hf : ErrorsFrom (u :: us) errors := h.of_suffix (hts.of_suffix hu) hs hne
  have hf' : ErrorsFrom (u :: us) (e :: errors) :=
    { from_head := by
        rintro _ ⟨⟩ f hm
        rcases List.mem_cons.1 hm with rfl | hm
        · exact he.le
        · exact hf.from_head u rfl f hm
      inOrder := List.pairwise_cons.2 ⟨fun f hm => he ▸ hf.from_head u rfl f hm, h.inOrder⟩ }
  exact hf'.of_suffix hts hu (List.cons_ne_nil u us)

namespace Parse

/-- The errors of the declarations and the conclusion, when the tokens are in order. -/
theorem errorsFrom_errorsWithin (budget : Nat) (hc : Closed ts) (hne : ts ≠ []) (h : InOrder ts) :
    ErrorsFrom ts (errorsWithin budget ts) := by
  induction budget generalizing ts with
  | zero => exact .nil ts
  | succ budget ih =>
    obtain ⟨t, us, rfl⟩ := List.exists_cons_of_ne_nil hne
    have hl := declaration_locates (List.suffix_refl (t :: us))
    rw [errorsWithin]
    split_ifs with hf
    · -- All that is left is the conclusion, which has at most one error.
      split
      · exact .nil _
      · rename_i e rest he
        obtain ⟨u, hu, hpos⟩ := mem_of_conclusion hc hne he
        refine ⟨?_, List.pairwise_singleton _ _⟩
        rintro _ ⟨⟩ f hm
        obtain rfl := List.mem_singleton.1 hm
        exact hpos ▸ h.le_of_mem hu
    · split
      · rename_i s rest hd
        have hr := hl.leaves hd
        obtain ⟨hcr, hner⟩ := hc.of_leaves hne hr
        exact (ih hcr hner (h.of_suffix hr.suffix)).of_suffix h hr.suffix hner
      · rename_i e rest hd
        obtain ⟨hr, -⟩ := hl.blames hd
        obtain ⟨u, vs, hu, hs, hpos⟩ := hl.exists_of_error hc hne hd
        have hfr : t.kind.isFinal = false := by simpa using hf
        -- Where the check goes on, whether or not a token has to be given up for it.
        have hg : Leaves rest (if rest.length = (t :: us).length then rest.tail else rest) := by
          split_ifs with hlen
          · obtain rfl := hr.suffix.eq_of_length hlen
            exact .cons hfr (.refl us)
          · exact .refl rest
        obtain ⟨hcr, hner⟩ := hc.of_leaves hne (hr.trans hg)
        refine .cons h hu hpos (hg.suffix.trans hs) hner (ih hcr hner ?_)
        exact h.of_suffix (hr.trans hg).suffix

end Parse

theorem Program.errorsFrom_check {tokens : List Token} (hc : Parse.Closed tokens) (hne : tokens ≠ [])
    (h : InOrder tokens) : ErrorsFrom tokens (Program.check tokens) := by
  have hl := Parse.beginning_locates (List.suffix_refl tokens)
  rw [Program.check]
  split
  · rename_i rest hb
    have hr := hl.leaves hb
    obtain ⟨hcr, hner⟩ := hc.of_leaves hne hr
    exact (Parse.errorsFrom_errorsWithin _ hcr hner (h.of_suffix hr.suffix)).of_suffix h hr.suffix hner
  · rename_i e rest hb
    obtain ⟨hr, -⟩ := hl.blames hb
    obtain ⟨u, us, hu, hs, hpos⟩ := hl.exists_of_error hc hne hb
    obtain ⟨hcr, hner⟩ := hc.of_leaves hne hr
    exact .cons h hu hpos hs hner (Parse.errorsFrom_errorsWithin _ hcr hner (h.of_suffix hr.suffix))

/-- A check reports its errors in the order of the text. No error is before one that
    is reported earlier, whatever is wrong with the text and however often. -/
theorem Report.check_inOrder (source : String) :
    ((Report.check source).result.map Failure.pos).Pairwise (· ≤ ·) := by
  rw [Report.check]
  split
  · exact List.pairwise_singleton _ _
  · rename_i tokens hs
    obtain ⟨hc, hne⟩ := closed_of_scan hs
    have he := (Program.errorsFrom_check hc hne (inOrder_of_scan hs)).inOrder
    rw [List.map_map]
    exact he.map _ fun _ _ h => h

-- No beginning, a number that is assigned to, no colon, no type and no end.
example : (Report.check "5 = x\nIPAKITA 1\nMUGNA y").result.map Failure.pos =
    [⟨1, 1⟩, ⟨1, 3⟩, ⟨2, 9⟩, ⟨3, 7⟩, ⟨3, 8⟩] := by
  decide +kernel

end Tudlo
