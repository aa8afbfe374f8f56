import Tudlo.Proofs.Binary64.Values
import Tudlo.Proofs.Operator.Causes

/-!
# Promotion

An integer that meets a decimal is *promoted*: it becomes the decimal of the same worth.
This is done up to a limit on the magnitude, below which every integer is representable,
and refused beyond it. So no promotion changes the worth of a number. Some of the
integers that are refused are representable all the same; the first one is `2 ^ 53`.

How two operands meet decides what an operator does with them (`Value.Meets`). They are
promoted when both are numbers and one of them is a decimal, and this is the only way to
lose precision.

* `BinaryOp.apply_eq_precisionLoss_iff`: when precision is lost;
* `Integer.promotion_exact`: what is promoted, and what it becomes.
-/

namespace Tudlo

open Binary64 (Representable rational)

namespace Integer

variable {n : Int64} {d : Binary64}

/-! ### The limit -/

/-- The largest magnitude of the integers that are promoted. -/
def promotionLimit : Nat :=
  Nat.pow 2 53 - 1

theorem lt_pow_iff {k : Nat} : k < Nat.pow 2 53 ↔ k ≤ promotionLimit :=
  Nat.lt_iff_le_pred (by decide)

theorem toBinary64?_of_le (h : n.toInt.natAbs ≤ promotionLimit) :
    toBinary64? n = some (.ofInt n.toInt) :=
  if_pos (lt_pow_iff.2 h)

theorem toBinary64?_of_lt (h : promotionLimit < n.toInt.natAbs) : toBinary64? n = none :=
  if_neg (mt lt_pow_iff.1 (Nat.not_le.2 h))

theorem isSome_toBinary64?_iff : (toBinary64? n).isSome ↔ n.toInt.natAbs ≤ promotionLimit := by
  rcases Nat.lt_or_ge promotionLimit n.toInt.natAbs with h | h
  · rw [toBinary64?_of_lt h]
    exact ⟨fun hs => absurd hs Bool.false_ne_true, fun hle => absurd h (Nat.not_lt.2 hle)⟩
  · rw [toBinary64?_of_le h]
    exact ⟨fun _ => h, fun _ => rfl⟩

/-- A promoted integer keeps its worth. -/
theorem worth?_of_toBinary64? (h : toBinary64? n = some d) :
    d.worth? = some (rational n.toInt) := by
  have hle : n.toInt.natAbs ≤ promotionLimit := by
    rw [← isSome_toBinary64?_iff, h]
    rfl
  rw [toBinary64?_of_le hle] at h
  rw [← Option.some.inj h, Binary64.worth?_ofInt (lt_pow_iff.2 hle)]

/-- What is not representable is refused. -/
theorem toBinary64?_of_not_representable (h : ¬ Representable n.toInt) :
    toBinary64? n = none := by
  rcases hd : toBinary64? n with _ | d
  · rfl
  · exact absurd ⟨d, worth?_of_toBinary64? hd⟩ h

end Integer

/-! ### How operands meet -/

namespace Value

variable {l r : Value}

/-- Whether a value is a character or a text. -/
def isTextual : Value → Bool
  | .character _ => true
  | .text _ => true
  | _ => false

/-- Two operands, by what an operator that asks for their kinds makes of them. -/
inductive Meets : Value → Value → Prop
  /-- Two integers. -/
  | integers (a b : Int64) : Meets (.integer a) (.integer b)
  /-- Two numbers that are not both integers. -/
  | promoted {l r : Value} (hl : l.isNumber = true) (hr : r.isNumber = true)
      (hd : l.kind = .decimal ∨ r.kind = .decimal) : Meets l r
  /-- Characters or texts. -/
  | texts {l r : Value} {s t : String} (hl : l.asText? = some s) (hr : r.asText? = some t) :
      Meets l r
  /-- Operands of which nothing can be made. -/
  | strangers {l r : Value} (hn : (l.isNumber && r.isNumber) = false)
      (ht : (l.isTextual && r.isTextual) = false) : Meets l r

/-- Any two operands meet in one of these ways. -/
theorem meets (l r : Value) : Meets l r := by
  cases l with
  | integer a =>
    cases r with
    | integer b => exact .integers a b
    | decimal y => exact .promoted rfl rfl (.inr rfl)
    | _ => exact .strangers rfl rfl
  | decimal x =>
    cases r with
    | integer b => exact .promoted rfl rfl (.inl rfl)
    | decimal y => exact .promoted rfl rfl (.inl rfl)
    | _ => exact .strangers rfl rfl
  | character c =>
    cases r with
    | character d => exact .texts rfl rfl
    | text t => exact .texts rfl rfl
    | _ => exact .strangers rfl rfl
  | text s =>
    cases r with
    | character d => exact .texts rfl rfl
    | text t => exact .texts rfl rfl
    | _ => exact .strangers rfl rfl
  | _ => exact .strangers rfl rfl

theorem isNumber_of_asText? {s : String} (h : l.asText? = some s) : l.isNumber = false := by
  cases l with
  | character c | text t => rfl
  | _ => cases h

theorem isSome_asText? (v : Value) : v.asText?.isSome = v.isTextual := by
  cases v <;> rfl

/-- The value is an integer beyond the limit of promotion. -/
def Beyond (v : Value) : Prop :=
  ∃ n : Int64, v = .integer n ∧ Integer.promotionLimit < n.toInt.natAbs

/-- One of the values is beyond the limit of promotion, and the other one a decimal. -/
def LosesPrecision (l r : Value) : Prop :=
  (l.Beyond ∧ r.kind = .decimal) ∨ (l.kind = .decimal ∧ r.Beyond)

theorem Beyond.isNumber (h : l.Beyond) : l.isNumber = true := by
  obtain ⟨n, rfl, -⟩ := h
  rfl

theorem isNumber_of_decimal (h : l.kind = .decimal) : l.isNumber = true := by
  cases l with
  | decimal d => rfl
  | _ => cases h

theorem LosesPrecision.isNumber (h : LosesPrecision l r) : (l.isNumber && r.isNumber) = true := by
  rcases h with ⟨hb, hd⟩ | ⟨hd, hb⟩ <;> rw [hb.isNumber, isNumber_of_decimal hd] <;> rfl

theorem not_losesPrecision_of_strangers (h : (l.isNumber && r.isNumber) = false) :
    ¬ LosesPrecision l r := by
  intro hp
  rw [hp.isNumber] at h
  cases h

theorem not_losesPrecision_of_integers (a b : Int64) :
    ¬ LosesPrecision (.integer a) (.integer b) := by
  rintro (⟨-, hd⟩ | ⟨hd, -⟩) <;> cases hd

theorem promote_of_beyond (h : l.Beyond) : l.promote = .error .precisionLoss := by
  obtain ⟨n, rfl, hn⟩ := h
  rw [promote, Integer.toBinary64?_of_lt hn]

/-- A number that is not beyond the limit is promoted. -/
theorem promote_of_not_beyond (hn : l.isNumber = true) (h : ¬ l.Beyond) :
    ∃ d, l.promote = .ok d := by
  cases l with
  | decimal d => exact ⟨d, rfl⟩
  | integer n =>
    have hle : n.toInt.natAbs ≤ Integer.promotionLimit := Nat.not_lt.1 fun hlt => h ⟨n, rfl, hlt⟩
    exact ⟨_, by rw [promote, Integer.toBinary64?_of_le hle]⟩
  | _ => cases hn

theorem not_beyond_of_decimal (h : l.kind = .decimal) : ¬ l.Beyond := by
  rintro ⟨n, rfl, -⟩
  cases h

/-- What is done with two promoted numbers loses precision when the promotion does. -/
theorem promoting_eq_precisionLoss_iff {β : Type} {f : Binary64 → Binary64 → Except FaultCause β}
    (hf : ∀ x y, f x y ≠ .error .precisionLoss) (hl : l.isNumber = true)
    (hr : r.isNumber = true) (hd : l.kind = .decimal ∨ r.kind = .decimal) :
    (do f (← l.promote) (← r.promote)) = .error .precisionLoss ↔ LosesPrecision l r := by
  by_cases hbl : l.Beyond
  · have hdr : r.kind = .decimal := hd.resolve_left fun h => not_beyond_of_decimal h hbl
    rw [promote_of_beyond hbl]
    exact ⟨fun _ => .inl ⟨hbl, hdr⟩, fun _ => rfl⟩
  · obtain ⟨x, hx⟩ := promote_of_not_beyond hl hbl
    rw [hx]
    by_cases hbr : r.Beyond
    · have hdl : l.kind = .decimal := hd.resolve_right fun h => not_beyond_of_decimal h hbr
      rw [promote_of_beyond hbr]
      exact ⟨fun _ => .inr ⟨hdl, hbr⟩, fun _ => rfl⟩
    · obtain ⟨y, hy⟩ := promote_of_not_beyond hr hbr
      rw [hy]
      refine ⟨fun h => absurd h (hf x y), ?_⟩
      rintro (⟨h, -⟩ | ⟨-, h⟩)
      · exact absurd h hbl
      · exact absurd h hbr

end Value

/-! ### Operators on promoted operands -/

namespace BinaryOp

variable {op : BinaryOp} {l r : Value}

/-- Whether an operator that asks which operand comes first accepts the answer. -/
def accepts (op : BinaryOp) (answer : Option Ordering) : Bool :=
  match op with
  | .less => answer == some .lt
  | .greater => answer == some .gt
  | .lessEqual => answer.any Ordering.isLE
  | .greaterEqual => answer.any Ordering.isGE
  | _ => false

/-- An operator that asks which operand comes first looks at nothing else. -/
theorem comparison_of_orders (h : op.orders = true) (l r : Value) :
    op.comparison l r = (do return .boolean (op.accepts (← op.ordering l r))) := by
  cases op with
  | less | greater | lessEqual | greaterEqual => rfl
  | _ => cases h

theorem apply_of_orders (h : op.orders = true) (l r : Value) :
    op.apply l r = op.comparison l r := by
  cases op with
  | less | greater | lessEqual | greaterEqual => rfl
  | _ => cases h

theorem apply_of_arithmetic (h : op.family = .arithmetic) (l r : Value) :
    op.apply l r = op.arithmetic l r := by
  rw [apply, h]

theorem arithmetic_of_promoted (hl : l.isNumber = true) (hr : r.isNumber = true)
    (hd : l.kind = .decimal ∨ r.kind = .decimal) :
    op.arithmetic l r = (do op.onDecimals (← l.promote) (← r.promote)) := by
  have hn : (l.isNumber && r.isNumber) = true := by rw [hl, hr]; rfl
  rw [arithmetic, if_pos hn]
  rintro a b rfl rfl
  rcases hd with hd | hd <;> cases hd

theorem arithmetic_of_strangers (h : (l.isNumber && r.isNumber) = false) :
    op.arithmetic l r = .error (.kindClash (.arithmetic op l.kind r.kind)) := by
  rw [arithmetic, h, if_neg Bool.false_ne_true]
  rintro a b rfl rfl
  cases h

theorem ordering_of_promoted (hl : l.isNumber = true) (hr : r.isNumber = true)
    (hd : l.kind = .decimal ∨ r.kind = .decimal) :
    op.ordering l r = (do return (← l.promote).compare? (← r.promote)) := by
  have hn : (l.isNumber && r.isNumber) = true := by rw [hl, hr]; rfl
  rw [ordering, if_pos hn]
  rintro a b rfl rfl
  rcases hd with hd | hd <;> cases hd

theorem ordering_of_texts {s t : String} (hl : l.asText? = some s) (hr : r.asText? = some t) :
    op.ordering l r = .ok (some (compareOfLessAndEq s t)) := by
  have hn := Value.isNumber_of_asText? hl
  rw [ordering, hn, Bool.false_and, if_neg Bool.false_ne_true, hl, hr]
  rintro a b rfl rfl
  cases hn

theorem ordering_of_strangers (hn : (l.isNumber && r.isNumber) = false)
    (ht : (l.isTextual && r.isTextual) = false) :
    op.ordering l r = .error (.kindClash (.ordering op l.kind r.kind)) := by
  rw [← Value.isSome_asText?, ← Value.isSome_asText?] at ht
  rw [ordering, hn, if_neg Bool.false_ne_true]
  · rcases hl : l.asText? with _ | s
    · rfl
    · rcases hr : r.asText? with _ | t
      · rfl
      · rw [hl, hr] at ht
        cases ht
  · rintro a b rfl rfl
    cases hn

/-! ### Losing precision -/

theorem onIntegers_ne_precisionLoss (op : BinaryOp) (a b : Int64) :
    op.onIntegers a b ≠ .error .precisionLoss := by
  have h : FailsOnly (· ≠ .precisionLoss) (op.onIntegers a b) := by
    cases op with
    | add | sub | mul => exact failsOnly_integerResult (by decide) _
    | div | rem =>
      exact failsOnly_ite (failsOnly_error (by decide)) (failsOnly_integerResult (by decide) _)
    | _ => exact failsOnly_error (by simp)
  exact fun he => h _ he rfl

theorem onDecimals_ne_precisionLoss (op : BinaryOp) (x y : Binary64) :
    op.onDecimals x y ≠ .error .precisionLoss := by
  have h : FailsOnly (· ≠ .precisionLoss) (op.onDecimals x y) := by
    cases op with
    | add | sub | mul => exact failsOnly_ok _
    | div | rem => exact failsOnly_ite (failsOnly_error (by decide)) (failsOnly_ok _)
    | _ => exact failsOnly_error (by simp)
  exact fun he => h _ he rfl

theorem arithmetic_eq_precisionLoss_iff (op : BinaryOp) (l r : Value) :
    op.arithmetic l r = .error .precisionLoss ↔ Value.LosesPrecision l r := by
  cases l.meets r with
  | integers a b =>
    exact iff_of_false (op.onIntegers_ne_precisionLoss a b)
      (Value.not_losesPrecision_of_integers a b)
  | promoted hl hr hd =>
    rw [arithmetic_of_promoted hl hr hd]
    exact Value.promoting_eq_precisionLoss_iff op.onDecimals_ne_precisionLoss hl hr hd
  | texts hl hr =>
    have hn : (l.isNumber && r.isNumber) = false := by rw [Value.isNumber_of_asText? hl]; rfl
    rw [arithmetic_of_strangers hn]
    exact iff_of_false (by simp) (Value.not_losesPrecision_of_strangers hn)
  | strangers hn ht =>
    rw [arithmetic_of_strangers hn]
    exact iff_of_false (by simp) (Value.not_losesPrecision_of_strangers hn)

theorem ordering_eq_precisionLoss_iff (op : BinaryOp) (l r : Value) :
    op.ordering l r = .error .precisionLoss ↔ Value.LosesPrecision l r := by
  cases l.meets r with
  | integers a b =>
    refine iff_of_false ?_ (Value.not_losesPrecision_of_integers a b)
    exact fun h => by cases h
  | promoted hl hr hd =>
    rw [ordering_of_promoted hl hr hd]
    exact Value.promoting_eq_precisionLoss_iff (fun _ _ h => by cases h) hl hr hd
  | texts hl hr =>
    have hn : (l.isNumber && r.isNumber) = false := by rw [Value.isNumber_of_asText? hl]; rfl
    rw [ordering_of_texts hl hr]
    exact iff_of_false (by simp) (Value.not_losesPrecision_of_strangers hn)
  | strangers hn ht =>
    rw [ordering_of_strangers hn ht]
    exact iff_of_false (by simp) (Value.not_losesPrecision_of_strangers hn)

theorem comparison_eq_error_iff (h : op.orders = true) {cause : FaultCause} :
    op.comparison l r = .error cause ↔ op.ordering l r = .error cause := by
  rw [comparison_of_orders h]
  rcases op.ordering l r with cause' | answer
  · exact ⟨fun he => congrArg Except.error (Except.error.inj he),
      fun he => congrArg Except.error (Except.error.inj he)⟩
  · exact iff_of_false (fun he => by cases he) (fun he => by cases he)

/-- An operator loses precision when one operand is an integer beyond the limit and the
    other one a decimal. -/
theorem apply_eq_precisionLoss_iff (h : op.family = .arithmetic ∨ op.orders = true)
    (l r : Value) : op.apply l r = .error .precisionLoss ↔ Value.LosesPrecision l r := by
  rcases h with h | h
  · rw [apply_of_arithmetic h, arithmetic_eq_precisionLoss_iff]
  · rw [apply_of_orders h, comparison_eq_error_iff h, ordering_eq_precisionLoss_iff]

end BinaryOp

namespace Integer

/-- An integer is promoted exactly when its magnitude is at most `2 ^ 53 - 1`, and it keeps
    its worth. All integers that are not representable are refused. So an operator that
    meets an integer and a decimal loses precision exactly when the magnitude of the
    integer is larger. -/
theorem promotion_exact (n : Int64) :
    ((toBinary64? n).isSome ↔ n.toInt.natAbs ≤ Nat.pow 2 53 - 1) ∧
    (∀ d, toBinary64? n = some d → d.worth? = some (rational n.toInt)) ∧
    (¬ Representable n.toInt → toBinary64? n = none) ∧
    ∀ (op : BinaryOp) (d : Binary64), op.family = .arithmetic ∨ op.orders = true →
      (op.apply (.integer n) (.decimal d) = .error .precisionLoss ↔
        Nat.pow 2 53 - 1 < n.toInt.natAbs) ∧
      (op.apply (.decimal d) (.integer n) = .error .precisionLoss ↔
        Nat.pow 2 53 - 1 < n.toInt.natAbs) := by
  have hb : (Value.integer n).Beyond ↔ promotionLimit < n.toInt.natAbs := by
    refine ⟨?_, fun h => ⟨n, rfl, h⟩⟩
    rintro ⟨m, hm, h⟩
    rwa [Value.integer.inj hm]
  refine ⟨isSome_toBinary64?_iff, fun d => worth?_of_toBinary64?,
    toBinary64?_of_not_representable, fun op d hop => ⟨?_, ?_⟩⟩
  · refine (BinaryOp.apply_eq_precisionLoss_iff hop _ _).trans ((or_iff_left ?_).trans ?_)
    · exact fun h => by cases h.1
    · exact (and_iff_left rfl).trans hb
  · refine (BinaryOp.apply_eq_precisionLoss_iff hop _ _).trans ((or_iff_right ?_).trans ?_)
    · exact fun h => by cases h.2
    · exact (and_iff_right rfl).trans hb

/-- The largest integer that is promoted, and one that is not when it is compared with the
    decimal that is not a number. -/
theorem promotion_exact_aroundLimit :
    (toBinary64? 9007199254740991).isSome ∧ BinaryOp.less.orders = true ∧
    BinaryOp.less.apply (.decimal .nan) (.integer (-9007199254740993)) = .error .precisionLoss :=
  ⟨(promotion_exact 9007199254740991).1.2 (by decide), rfl,
    ((promotion_exact (-9007199254740993)).2.2.2 .less .nan (.inr rfl)).2.2 (by decide)⟩

/-- The integer `2 ^ 53` is representable, and is refused. -/
theorem refuses_representable :
    Representable (9007199254740992 : Int64).toInt ∧ toBinary64? 9007199254740992 = none ∧
    BinaryOp.add.apply (.integer 9007199254740992) (.decimal (.zero false)) =
      .error .precisionLoss := by
  have hn : (9007199254740992 : Int64).toInt.natAbs = Binary64.binade * 2 ^ 1 := by decide
  exact ⟨⟨_, Binary64.worth?_ofInt_of_count 1 (by decide) (by decide) hn⟩, rfl, rfl⟩

end Integer

end Tudlo
