import Tudlo.Proofs.Grammar.Limits
import Tudlo.Proofs.Grammar.Recovery
import Tudlo.Proofs.Machine.Actions

/-!
# Checking makes progress

Every rule leaves a part of the tokens, also when it fails, and never gets past a token that
ends the statements of a program. When it succeeds, it has consumed a token
(`Parse.Progresses`). So does a declaration that fails: a keyword that begins a statement is
consumed before anything can fail, and any other token is given up
(`Parse.length_lt_of_error`).

A check takes one turn after the other, each with a declaration, until such a token comes
(`Parse.TurnsTo`, `Parse.LoopsTo`). It is prepared for a declaration that fails without
consuming anything, and then skips a token to get on. This never happens
(`Parse.TurnsTo.not_forced`), every turn leaves less tokens, and a check comes to an end
with no more errors than there are tokens, and two more for the beginning and the conclusion.

* `Program.check_terminates`: all of this together.
-/

namespace Tudlo

namespace Parse

variable {α : Type} {ts rest : List Token} {t : Token} {e : SyntaxError}

/-! ### Rules -/

/-- The rule leaves a part of the tokens, whether it succeeds or fails, and does not consume
    one that ends the statements of a program. When it succeeds, it has consumed one. -/
structure Progresses (rule : Parse α) : Prop where
  leaves (ts : List Token) : Leaves ts (stateAfter rule ts)
  consumes : Consumes rule

theorem Locates.leaves_stateAfter {all : List Token} {rule : Parse α} (h : Locates all rule ts) :
    Leaves ts (stateAfter rule ts) := by
  cases hr : rule ts with
  | ok a rest =>
    rw [stateAfter_of_ok hr]
    exact h.leaves hr
  | error e rest =>
    rw [stateAfter_of_error hr]
    exact (h.blames hr).1

/-- A rule that reads something consumes a token. -/
theorem Reads.consumes {rule : Parse α} {D : List Token → α → Prop} (h : Reads rule D)
    (hD : ∀ {us a}, D us a → us ≠ []) : Consumes rule := by
  intro ts a rest hr
  obtain ⟨us, rfl, hd⟩ := h hr
  have := List.length_pos_of_ne_nil (hD hd)
  rw [List.length_append]
  omega

theorem typed_progresses : Progresses typed where
  leaves ts := (typed_locates (List.suffix_refl ts)).leaves_stateAfter
  consumes := typed_reads.consumes fun h => by cases h <;> exact List.cons_ne_nil _ _

theorem expression_progresses : Progresses expression where
  leaves ts := (expression_locates (List.suffix_refl ts)).leaves_stateAfter
  consumes := expression_reads.consumes Rule.Derives.ne_nil

theorem declaration_progresses : Progresses declaration where
  leaves ts := (declaration_locates (List.suffix_refl ts)).leaves_stateAfter
  consumes _ _ _ h := length_lt_of_declaration h

theorem statement_progresses : Progresses statement where
  leaves ts := by
    have h := @declarationWithin_locates ts (ts.length + 1)
    have hs := statementOf_locates h (declarationWithin_consumes _)
      (Nat.lt_add_right 1 (Nat.lt_succ_self _)) (List.suffix_refl ts)
    exact (Locates.get hs).leaves_stateAfter
  consumes ts s rest h := by
    have hr := statementOf_reads (declarationWithin_reads (ts.length + 1))
    exact hr.consumes (fun hs => (Phrase.Derives.plain hs).declaration_ne_nil) h

theorem block_progresses : Progresses block where
  leaves ts := by
    have h := @declarationWithin_locates ts (ts.length + 1)
    have hb := blockOf_locates h (declarationWithin_consumes _)
      (Nat.lt_add_right 1 (Nat.lt_succ_self _)) (List.suffix_refl ts)
    exact (Locates.get hb).leaves_stateAfter
  consumes ts b rest h := by
    have hr := blockOf_reads (declarationWithin_reads (ts.length + 1))
    exact hr.consumes Phrase.Derives.block_ne_nil h

/-- Operations begin with an operand. -/
theorem operations_consume {operand : Parse Expr} (hr : Reads operand fun _ _ => True)
    (hc : Consumes operand) (levels : List Level) : Consumes (operations levels operand) := by
  induction levels with
  | nil => exact hc
  | cons level levels ih =>
    intro ts e rest h
    obtain ⟨left, mid, hl, h⟩ := chain_eq_ok.1 h
    have ho := (nextIsNot_of_operations hr levels).1
    have hm := @chainFrom_reads level.operator? _ _ (fun _ _ => True) ho (fun _ _ _ => trivial)
      mid.length [] left trivial
    exact Nat.lt_of_le_of_lt (hm.length_le h) (ih hl)

theorem operation_progresses (level : Level) : Progresses (operation level) where
  leaves ts := by
    have h := @expressionWithin_locates ts (ts.length + 1)
    have ho := operations_locates (Level.all.dropWhile (· != level))
      (unary_locates (primary_locates h)) (Nat.lt_add_right 1 (Nat.lt_succ_self _))
      (List.suffix_refl ts)
    exact (Locates.get ho).leaves_stateAfter
  consumes ts e rest h := by
    have hu := unary_reads (primary_reads (expressionWithin_reads (ts.length + 1)).1)
    exact operations_consume hu.stretches (hu.consumes Rule.Derives.ne_nil) _ h

theorem primary_progresses : Progresses (primary expression) where
  leaves ts := by
    have h : LocatesWithin ts ts.length expression := fun _ _ hs => expression_locates hs
    exact (primary_locates h (Nat.lt_succ_self _) (List.suffix_refl ts)).leaves_stateAfter
  consumes := (primary_reads expression_reads).consumes Rule.Derives.ne_nil

theorem unary_progresses : Progresses (unary (primary expression)) where
  leaves ts := by
    have h : LocatesWithin ts ts.length expression := fun _ _ hs => expression_locates hs
    exact (unary_locates (primary_locates h) (Nat.lt_succ_self _)
      (List.suffix_refl ts)).leaves_stateAfter
  consumes := (unary_reads (primary_reads expression_reads)).consumes Rule.Derives.ne_nil

/-! ### Declarations that fail -/

/-- The rule consumes the first token whatever happens, and goes on with those after it. -/
def Steps (rule : Parse α) (t : Token) (ts : List Token) : Prop :=
  ∃ next : Parse α, rule (t :: ts) = next ts ∧ Locates ts next ts

theorem Steps.length_lt {rule : Parse α} (h : Steps rule t ts)
    (he : rule (t :: ts) = .error e rest) : rest.length < (t :: ts).length := by
  obtain ⟨next, hn, hl⟩ := h
  exact Nat.lt_succ_of_le (hl.blames (hn ▸ he)).1.length_le

end Parse

theorem TokenKind.beginsStatement_iff {k : TokenKind} : k.beginsStatement = true ↔
    k = .keyword .mugna ∨ k = .keyword .ipakita ∨ k = .keyword .dawat ∨ k = .keyword .kung ∨
      k = .keyword .alangSa ∨ k = .keyword .pundok ∨ ∃ type, k = .keyword (.scalar type) := by
  refine ⟨fun h => ?_, ?_⟩
  · unfold beginsStatement at h
    split at h
    case h_8 => cases h
    all_goals simp
  · rintro (rfl | rfl | rfl | rfl | rfl | rfl | ⟨type, rfl⟩) <;> rfl

namespace Parse

section Attempts

variable {rounds : Nat}

theorem declaredAs_locates (type : ScalarType) (pos : Position) :
    Locates ts (declaredAs type pos) ts := by
  have hs := List.suffix_refl ts
  refine .bind hs (locates_names ts hs) fun names us _ _ hu => ?_
  refine .bind hu (locates_accept rfl hu) fun r vs _ _ hv => ?_
  split
  · exact .bind hv (expression_locates hv) fun _ _ _ _ _ => locates_pure _
  · exact locates_pure _

/-- A block with a keyword before it consumes that. -/
theorem blockOf_steps (hk : t.kind = .keyword .pundok) (hn : ts.length ≤ rounds) :
    Steps (blockOf (declarationWithin rounds)) t ts := by
  rw [Steps, blockOf, bind_of_ok (peek_cons t ts), bind_of_ok (accept_of_eq hk)]
  refine ⟨_, rfl, ?_⟩
  have hs := List.suffix_refl ts
  refine .bind hs (locates_expect rfl _ hs) fun _ us he _ hu => .get ?_
  obtain ⟨o, rfl, -⟩ := expect_eq_ok he
  have hd := declarationsWithin_locates (declarationWithin_locates rounds)
    (declarationWithin_consumes rounds) hn (Nat.lt_succ_self us.length) hu
  exact .bind hu hd fun _ _ _ _ _ => locates_pure _

/-- A keyword that begins a statement is consumed. -/
theorem attempt_steps (h : t.kind.beginsStatement = true) (hn : ts.length ≤ rounds) :
    Steps (attempt rounds) t ts := by
  have hs := List.suffix_refl ts
  have hb := blockOf_locates (@declarationWithin_locates ts rounds) (declarationWithin_consumes _)
  rcases TokenKind.beginsStatement_iff.1 h with hk | hk | hk | hk | hk | hk | ⟨type, hk⟩
  · exact ⟨_, attempt_of_mugna hk, typed_locates hs⟩
  · refine ⟨_, attempt_of_ipakita hk, .bind hs (locates_expect rfl _ hs) fun _ us _ _ hu => ?_⟩
    exact .bind hu (expression_locates hu) fun _ _ _ _ _ => locates_pure _
  · refine ⟨_, attempt_of_dawat hk, .bind hs (locates_expect rfl _ hs) fun _ us _ _ hu => ?_⟩
    exact .bind hu (locates_names us hu) fun _ _ _ _ _ => locates_pure _
  all_goals rw [Steps, attempt_of_ne (by simp [hk]), statementOf, bind_of_ok (peek_cons t ts), hk]
  · refine ⟨_, bind_of_ok (skip_cons t ts), ?_⟩
    exact .get (choiceWithin_locates hb t.pos (Nat.lt_succ_of_le hn) (Nat.lt_succ_self _) hs)
  · exact ⟨_, bind_of_ok (skip_cons t ts), loop_locates hb t.pos (Nat.lt_succ_of_le hn) hs⟩
  · obtain ⟨next, he, hl⟩ := blockOf_steps hk hn
    exact ⟨_, bind_of_eq he, .bind hs hl fun _ _ _ _ _ => locates_pure _⟩
  · exact ⟨_, typed_of_scalar hk, declaredAs_locates type t.pos⟩

end Attempts

theorem resuming_eq_error {rule : Parse α} (h : resuming rule ts = .error e rest) :
    ∃ mid, rule ts = .error e mid ∧
      rest = mid.dropWhile fun t => !(t.kind.isFinal || t.kind.beginsStatement) := by
  cases hr : rule ts with
  | ok a mid =>
    rw [resuming_eq_ok.2 hr] at h
    cases h
  | error e' mid =>
    rw [resuming, hr] at h
    obtain ⟨rfl, rfl⟩ := EStateM.Result.error.inj h
    exact ⟨mid, rfl, rfl⟩

/-- After a declaration that fails comes a token that begins a statement or ends all. -/
theorem next_of_error (h : declaration ts = .error e rest) :
    ∀ u ∈ rest.head?, u.kind.isFinal = true ∨ u.kind.beginsStatement = true := by
  rw [declaration_eq] at h
  obtain ⟨mid, -, rfl⟩ := resuming_eq_error h
  intro u hu
  have hn := List.head?_dropWhile_not (fun t => !(t.kind.isFinal || t.kind.beginsStatement)) mid
  rw [Option.mem_def.1 hu] at hn
  simpa only [Bool.not_eq_false', Bool.or_eq_true] using hn

/-- A declaration consumes a token also when it fails. -/
theorem length_lt_of_error (hf : t.kind.isFinal = false)
    (h : declaration (t :: ts) = .error e rest) : rest.length < (t :: ts).length := by
  have hs := ((declaration_locates (List.suffix_refl (t :: ts))).blames h).1.suffix
  refine Nat.lt_of_le_of_ne hs.length_le fun hl => ?_
  obtain rfl := hs.eq_of_length hl
  -- A token that is still there begins a statement, but then it would have been consumed.
  rcases next_of_error h t rfl with hf' | hb
  · rw [hf] at hf'
    cases hf'
  · rw [declaration_eq] at h
    obtain ⟨mid, hm, hr⟩ := resuming_eq_error h
    have hlt := (attempt_steps hb (Nat.le_succ ts.length)).length_lt hm
    have hd : t :: ts <:+ mid := hr ▸ List.dropWhile_suffix _
    exact Nat.not_lt_of_le hd.length_le hlt

/-! ### The turns of a check -/

/-- What a turn comes to: a statement that is read, an error after which the check resumes,
    or an error after which it has to skip a token to get on. -/
inductive Turn where
  | read (s : Statement)
  | resumed (e : SyntaxError)
  | forced (e : SyntaxError)

/-- The error that is found in a turn. -/
def Turn.error? : Turn → Option SyntaxError
  | .read _ => none
  | .resumed e => some e
  | .forced e => some e

/-- A turn of the check, and the tokens that are left then. -/
inductive TurnsTo : List Token → Turn → List Token → Prop
  | read {t : Token} {ts rest : List Token} {s : Statement} (hf : t.kind.isFinal = false)
      (h : declaration (t :: ts) = .ok s rest) : TurnsTo (t :: ts) (.read s) rest
  | resumed {t : Token} {ts rest : List Token} {e : SyntaxError} (hf : t.kind.isFinal = false)
      (h : declaration (t :: ts) = .error e rest) (hl : rest.length ≠ (t :: ts).length) :
      TurnsTo (t :: ts) (.resumed e) rest
  | forced {t : Token} {ts rest : List Token} {e : SyntaxError} (hf : t.kind.isFinal = false)
      (h : declaration (t :: ts) = .error e rest) (hl : rest.length = (t :: ts).length) :
      TurnsTo (t :: ts) (.forced e) rest.tail

/-- All turns of a check, up to a token that ends the statements or to the end of all. -/
inductive LoopsTo : List Token → List Turn → List Token → Prop
  | stop {ts : List Token} (h : ∀ t ∈ ts.head?, t.kind.isFinal = true) : LoopsTo ts [] ts
  | turn {ts mid rest : List Token} {turn : Turn} {turns : List Turn} (h : TurnsTo ts turn mid)
      (hs : LoopsTo mid turns rest) : LoopsTo ts (turn :: turns) rest

namespace TurnsTo

variable {turn : Turn}

/-- No turn has to skip a token. -/
theorem not_forced : ¬TurnsTo ts (.forced e) rest := by
  intro h
  cases h with
  | forced hf h hl => exact Nat.ne_of_lt (length_lt_of_error hf h) hl

theorem length_lt (h : TurnsTo ts turn rest) : rest.length < ts.length := by
  cases h with
  | read _ h => exact length_lt_of_declaration h
  | resumed hf h _ => exact length_lt_of_error hf h
  | forced hf h hl => exact absurd (.forced hf h hl) not_forced

theorem leaves (h : TurnsTo ts turn rest) : Leaves ts rest := by
  have hd := declaration_locates (List.suffix_refl ts)
  cases h with
  | read _ h => exact hd.leaves h
  | resumed _ h _ => exact (hd.blames h).1
  | forced hf h hl => exact absurd (.forced hf h hl) not_forced

/-- The errors from a turn on. -/
theorem errors_eq (h : TurnsTo ts turn rest) :
    errors ts = turn.error?.toList ++ errors rest := by
  cases h with
  | read hf h => exact errors_of_ok hf h
  | resumed hf h _ => exact errors_of_error hf h (length_lt_of_error hf h)
  | forced hf h hl => exact absurd (.forced hf h hl) not_forced

/-- There is a turn unless the check has to stop. -/
theorem exists_of_isFinal (hf : t.kind.isFinal = false) (ts : List Token) :
    ∃ turn rest, TurnsTo (t :: ts) turn rest := by
  cases h : declaration (t :: ts) with
  | ok s rest => exact ⟨_, _, .read hf h⟩
  | error e rest => exact ⟨_, _, .resumed hf h (Nat.ne_of_lt (length_lt_of_error hf h))⟩

end TurnsTo

theorem wellFounded_turnsTo : WellFounded fun rest ts => ∃ turn, TurnsTo ts turn rest :=
  Subrelation.wf (fun h => h.elim fun _ ht => ht.length_lt)
    (measure (α := List Token) List.length).wf

/-- A check takes its turns and stops, whatever the tokens are. -/
theorem exists_loopsTo (ts : List Token) : ∃ turns rest, LoopsTo ts turns rest := by
  induction ts using wellFounded_turnsTo.induction with
  | _ ts ih =>
    by_cases hs : ∀ t ∈ ts.head?, t.kind.isFinal = true
    · exact ⟨_, _, .stop hs⟩
    · obtain ⟨t, us, rfl, hf⟩ : ∃ t us, ts = t :: us ∧ t.kind.isFinal = false := by
        cases ts with
        | nil => simp at hs
        | cons t us => exact ⟨t, us, rfl, by simpa using hs⟩
      obtain ⟨turn, mid, ht⟩ := TurnsTo.exists_of_isFinal hf us
      obtain ⟨turns, rest, h⟩ := ih mid ⟨turn, ht⟩
      exact ⟨_, _, .turn ht h⟩

namespace LoopsTo

variable {turns : List Turn}

theorem leaves (h : LoopsTo ts turns rest) : Leaves ts rest := by
  induction h with
  | stop => exact .refl _
  | turn h _ ih => exact h.leaves.trans ih

theorem stops (h : LoopsTo ts turns rest) : ∀ t ∈ rest.head?, t.kind.isFinal = true := by
  induction h with
  | stop h => exact h
  | turn _ _ ih => exact ih

/-- A check stops at the first token that ends the statements. -/
theorem eq_dropWhile (h : LoopsTo ts turns rest) :
    rest = ts.dropWhile fun t => !t.kind.isFinal := by
  obtain ⟨us, rfl, hu⟩ := h.leaves
  rw [List.dropWhile_append_of_pos (by simpa using hu)]
  cases rest with
  | nil => rfl
  | cons t rest =>
    have ht := h.stops t rfl
    rw [List.dropWhile_cons_of_neg (by simp [ht])]

theorem length_add_le (h : LoopsTo ts turns rest) : turns.length + rest.length ≤ ts.length := by
  induction h with
  | stop => simp
  | turn h _ ih =>
    have := h.length_lt
    rw [List.length_cons]
    omega

/-- All errors are those of the turns and of the conclusion. -/
theorem errors_eq (h : LoopsTo ts turns rest) :
    errors ts = turns.filterMap Turn.error? ++ (error? conclusion rest).toList := by
  induction h with
  | @stop ts h =>
    cases ts with
    | nil => rfl
    | cons t ts =>
      rw [errors, errorsWithin, if_pos (h t rfl), error?]
      cases conclusion (t :: ts) <;> rfl
  | @turn ts mid rest turn turns h _ ih =>
    rw [h.errors_eq, ih, ← List.append_assoc]
    cases turn <;> rfl

end LoopsTo

end Parse

namespace Program

open Parse

/-- A check goes on after a missing beginning. -/
theorem check_eq (tokens : List Token) :
    check tokens = (error? beginning tokens).toList ++ errors (stateAfter beginning tokens) := by
  cases h : beginning tokens with
  | ok u rest => rw [check, h, error?_of_ok h, stateAfter_of_ok h]; rfl
  | error e rest => rw [check, h, error?_of_error h, stateAfter_of_error h]; rfl

theorem length_check_le {tokens rest : List Token} {turns : List Turn}
    (h : LoopsTo (stateAfter beginning tokens) turns rest) :
    (check tokens).length ≤ tokens.length + 2 := by
  have hb := (beginning_locates (List.suffix_refl tokens)).leaves_stateAfter.length_le
  have ht := h.length_add_le
  have hf := List.length_filterMap_le Turn.error? turns
  have h₁ := (error? beginning tokens).length_toList_le
  have h₂ := (error? conclusion rest).length_toList_le
  rw [check_eq, h.errors_eq, List.length_append, List.length_append]
  omega

/-- Rules make progress and do not get past the end of the statements, also when they fail.
    So a check comes to an end: it takes its turns up to the first token that ends the
    statements, or up to the end of all tokens. Each turn leaves less tokens, and none has to
    skip one. The limits of the rules do not matter to this. -/
theorem check_terminates :
    (Progresses declaration ∧ Progresses statement ∧ Progresses typed ∧ Progresses block ∧
      Progresses expression ∧ (∀ level, Progresses (operation level)) ∧
      Progresses (unary (primary expression)) ∧ Progresses (primary expression)) ∧
    (∀ t ts e rest, t.kind.isFinal = false → declaration (t :: ts) = .error e rest →
      rest.length < (t :: ts).length ∧
      ∀ u ∈ rest.head?, u.kind.isFinal = true ∨ u.kind.beginsStatement = true) ∧
    Unlimited ∧
    (WellFounded fun rest ts => ∃ turn, TurnsTo ts turn rest) ∧
    (∀ ts e rest, ¬TurnsTo ts (.forced e) rest) ∧
    ∀ tokens, ∃ turns rest,
      LoopsTo (stateAfter beginning tokens) turns rest ∧
      rest = (stateAfter beginning tokens).dropWhile (fun t => !t.kind.isFinal) ∧
      check tokens = (error? beginning tokens).toList ++ turns.filterMap Turn.error? ++
        (error? conclusion rest).toList ∧
      (check tokens).length ≤ tokens.length + 2 := by
  refine ⟨⟨declaration_progresses, statement_progresses, typed_progresses, block_progresses,
    expression_progresses, operation_progresses, unary_progresses, primary_progresses⟩,
    fun t ts e rest hf h => ⟨length_lt_of_error hf h, next_of_error h⟩, unlimited,
    wellFounded_turnsTo, fun _ _ _ => TurnsTo.not_forced, fun tokens => ?_⟩
  obtain ⟨turns, rest, h⟩ := exists_loopsTo (stateAfter beginning tokens)
  have he : check tokens = (error? beginning tokens).toList ++ turns.filterMap Turn.error? ++
      (error? conclusion rest).toList := by
    rw [check_eq, h.errors_eq, List.append_assoc]
  exact ⟨turns, rest, h, h.eq_dropWhile, he, length_check_le h⟩

/-- Without any tokens both the beginning and the conclusion are missed. -/
example : (check []).length = 2 := rfl

end Program

end Tudlo
