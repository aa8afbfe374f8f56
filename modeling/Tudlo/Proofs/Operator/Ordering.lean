import Mathlib.Data.String.Basic
import Mathlib.Data.Sum.Order
import Mathlib.Order.Compare
import Tudlo.Proofs.Operator.Promotion
import Tudlo.Proofs.Text.Bytes

/-!
# The order of values

Every value that can be ordered has a *key* (`Value.key?`): a number what it is worth, and
a character or a text its code points. Among numbers and among texts the keys are in one
line, and between a number and a text there is no order. Operators compare operands of
different kinds in different ways, but always as the keys are (`ordering_compares`): an
integer keeps its worth when it is promoted, and a character is a text of length one.

What is known about the order of the keys is then known about the operators. They can
refuse an answer, though, and the decimal that is not a number has no key: it comes
neither before nor after any number.

* `BinaryOp.comparison_ordered`: what the operators answer, and that the answers do not
  contradict one another.
-/

namespace Tudlo

open Binary64 (rational worth?)

/-! ### Keys -/

/-- What values are ordered by. Numbers and texts are not ordered among each other. -/
abbrev Key := Binary64.Extended ⊕ List Char

namespace Value

variable {l r : Value}

/-- The key of a value. Only the decimal that is not a number, truth values and the null
    value have none. -/
def key? : Value → Option Key
  | .integer n => some (.inl (rational n.toInt))
  | .decimal d => d.worth?.map .inl
  | .character c => some (.inr [c])
  | .text s => some (.inr s.toList)
  | _ => none

/-- Both are numbers, or both are characters or texts. -/
def Comparable (l r : Value) : Prop :=
  (l.isNumber && r.isNumber) = true ∨ (l.isTextual && r.isTextual) = true

theorem key?_of_promote {x : Binary64} (h : l.promote = .ok x) :
    l.key? = x.worth?.map .inl := by
  cases l with
  | decimal d =>
    obtain rfl := Except.ok.inj h
    rfl
  | integer n =>
    rw [promote] at h
    rcases hn : Integer.toBinary64? n with _ | y
    · rw [hn] at h
      cases h
    · rw [hn] at h
      obtain rfl := Except.ok.inj h
      rw [Integer.worth?_of_toBinary64? hn]
      rfl
  | _ => cases h

theorem key?_of_asText? {s : String} (h : l.asText? = some s) : l.key? = some (.inr s.toList) := by
  cases l with
  | character c =>
    obtain rfl := Option.some.inj h
    rw [String.toList_singleton]
    rfl
  | text t =>
    obtain rfl := Option.some.inj h
    rfl
  | _ => cases h

/-- Numbers and texts have keys, but for the decimal that is not a number. -/
theorem exists_key (h : l.isNumber = true ∨ l.isTextual = true) (hn : l ≠ .decimal .nan) :
    ∃ a, l.key? = some a := by
  cases l with
  | integer n => exact ⟨_, rfl⟩
  | decimal d =>
    cases d with
    | finite negative rank => exact ⟨_, rfl⟩
    | infinite negative => exact ⟨_, rfl⟩
    | nan => exact absurd rfl hn
  | character c => exact ⟨_, rfl⟩
  | text s => exact ⟨_, rfl⟩
  | _ => rcases h with h | h <;> cases h

/-- Numbers are promoted when they do not lose precision. -/
theorem exists_promote (hl : l.isNumber = true) (hr : r.isNumber = true)
    (hd : l.kind = .decimal ∨ r.kind = .decimal) (hp : ¬ LosesPrecision l r) :
    ∃ x y, l.promote = .ok x ∧ r.promote = .ok y := by
  have hbl : ¬ l.Beyond := fun hb =>
    hp (.inl ⟨hb, hd.resolve_left fun h => not_beyond_of_decimal h hb⟩)
  have hbr : ¬ r.Beyond := fun hb =>
    hp (.inr ⟨hd.resolve_right fun h => not_beyond_of_decimal h hb, hb⟩)
  obtain ⟨x, hx⟩ := promote_of_not_beyond hl hbl
  obtain ⟨y, hy⟩ := promote_of_not_beyond hr hbr
  exact ⟨x, y, hx, hy⟩

theorem Comparable.symm (h : Comparable l r) : Comparable r l := by
  rwa [Comparable, Bool.and_comm, Bool.and_comm r.isTextual]

theorem not_comparable (hn : (l.isNumber && r.isNumber) = false)
    (ht : (l.isTextual && r.isTextual) = false) : ¬ Comparable l r := by
  rw [Comparable, hn, ht]
  simp

end Value

/-! ### How keys compare -/

theorem compares_rational (a b : Int) : (compare a b).Compares (rational a) (rational b) := by
  have hm : StrictMono fun n : Int => rational n :=
    fun m n h => Binary64.rational_lt_rational.2 (Int.cast_lt.2 h)
  rw [hm.compares, ← cmp_eq_compare]
  exact cmp_compares a b

theorem compares_toList (s t : String) :
    (compareOfLessAndEq s t).Compares s.toList t.toList := by
  show (if s < t then Ordering.lt else if s = t then .eq else .gt).Compares s.toList t.toList
  split
  · rename_i h
    exact String.lt_iff_toList_lt.1 h
  · rename_i h
    split
    · rename_i he
      exact congrArg String.toList he
    · rename_i he
      exact String.lt_iff_toList_lt.1 ((lt_trichotomy s t).resolve_left h |>.resolve_left he)

namespace BinaryOp

variable {op : BinaryOp} {l r : Value}

/-- What the operator says of two keys. -/
def Relates (op : BinaryOp) (a b : Key) : Prop :=
  match op with
  | .less => a < b
  | .greater => b < a
  | .lessEqual => a ≤ b
  | .greaterEqual => b ≤ a
  | _ => False

/-- The operator accepts how the keys compare if it says so. -/
theorem accepts_iff (h : op.orders = true) {o : Ordering} {a b : Key} (ho : o.Compares a b) :
    op.accepts (some o) = true ↔ op.Relates a b := by
  cases op with
  | less => exact beq_iff_eq.trans (Option.some_inj.trans ho.eq_lt)
  | greater => exact beq_iff_eq.trans (Option.some_inj.trans ho.eq_gt)
  | lessEqual => exact Ordering.isLE_iff_ne_gt.trans ho.ne_gt
  | greaterEqual => exact Ordering.isGE_iff_ne_lt.trans ho.ne_lt
  | _ => cases h

/-- Operands that can be ordered are ordered as their keys. -/
theorem ordering_compares (op : BinaryOp) (hc : Value.Comparable l r)
    (hp : ¬ Value.LosesPrecision l r) {a b : Key} (ha : l.key? = some a) (hb : r.key? = some b) :
    ∃ o, op.ordering l r = .ok (some o) ∧ o.Compares a b := by
  cases l.meets r with
  | integers m n =>
    obtain rfl := Option.some.inj ha
    obtain rfl := Option.some.inj hb
    exact ⟨_, rfl, Sum.inl_strictMono.compares.2 (compares_rational m.toInt n.toInt)⟩
  | promoted hl hr hd =>
    -- Promotion keeps the worth, so the two decimals have the keys of the operands.
    obtain ⟨x, y, hx, hy⟩ := Value.exists_promote hl hr hd hp
    rw [Value.key?_of_promote hx, Option.map_eq_some_iff] at ha
    rw [Value.key?_of_promote hy, Option.map_eq_some_iff] at hb
    obtain ⟨p, hxp, rfl⟩ := ha
    obtain ⟨q, hyq, rfl⟩ := hb
    obtain ⟨o, ho, hpq⟩ := Binary64.compare?_compares hxp hyq
    refine ⟨o, ?_, Sum.inl_strictMono.compares.2 hpq⟩
    rw [ordering_of_promoted hl hr hd, hx, hy, ← ho]
    rfl
  | texts hl hr =>
    rw [Value.key?_of_asText? hl] at ha
    rw [Value.key?_of_asText? hr] at hb
    obtain rfl := Option.some.inj ha
    obtain rfl := Option.some.inj hb
    exact ⟨_, ordering_of_texts hl hr, Sum.inr_strictMono.compares.2 (compares_toList _ _)⟩
  | strangers hn ht => exact absurd hc (Value.not_comparable hn ht)

/-- A number that is not one has no place in the order. -/
theorem ordering_of_nan (hc : Value.Comparable l r) (hp : ¬ Value.LosesPrecision l r)
    (h : l = .decimal .nan ∨ r = .decimal .nan) : op.ordering l r = .ok none := by
  cases l.meets r with
  | integers m n => rcases h with h | h <;> cases h
  | promoted hl hr hd =>
    obtain ⟨x, y, hx, hy⟩ := Value.exists_promote hl hr hd hp
    have hnan : x = .nan ∨ y = .nan := by
      rcases h with rfl | rfl
      · exact .inl (Except.ok.inj hx).symm
      · exact .inr (Except.ok.inj hy).symm
    rw [ordering_of_promoted hl hr hd, hx, hy]
    exact congrArg Except.ok (Binary64.compare?_of_nan hnan)
  | texts hl hr => rcases h with rfl | rfl <;> cases ‹_›
  | strangers hn ht => exact absurd hc (Value.not_comparable hn ht)

/-! ### Answers -/

/-- The operator answers with a truth value. -/
def Answers (op : BinaryOp) (l r : Value) (c : Bool) : Prop :=
  op.apply l r = .ok (.boolean c)

theorem answers_of_ordering (h : op.orders = true) {o : Option Ordering}
    (ho : op.ordering l r = .ok o) : op.Answers l r (op.accepts o) := by
  rw [Answers, apply_of_orders h, comparison_of_orders h, ho]
  rfl

theorem Answers.unique {c c' : Bool} (h : op.Answers l r c) (h' : op.Answers l r c') : c = c' :=
  Value.boolean.inj (Except.ok.inj (h.symm.trans h'))

/-- Without a key there is nothing that an operator accepts. -/
theorem accepts_none (op : BinaryOp) : op.accepts none = false := by
  cases op <;> rfl

/-- An operator refuses operands that cannot be compared, and no others for their kinds. -/
theorem apply_eq_kindClash_iff (h : op.orders = true) :
    (∃ clash, op.apply l r = .error (.kindClash clash)) ↔ ¬ Value.Comparable l r := by
  simp only [apply_of_orders h, comparison_eq_error_iff h]
  cases l.meets r with
  | integers m n => exact iff_of_false (fun ⟨_, he⟩ => by cases he) (not_not.2 (.inl rfl))
  | promoted hl hr hd =>
    refine iff_of_false ?_ (not_not.2 (.inl (by rw [hl, hr]; rfl)))
    rintro ⟨clash, he⟩
    by_cases hp : Value.LosesPrecision l r
    · rw [(ordering_eq_precisionLoss_iff op l r).2 hp] at he
      cases he
    · obtain ⟨x, y, hx, hy⟩ := Value.exists_promote hl hr hd hp
      rw [ordering_of_promoted hl hr hd, hx, hy] at he
      cases he
  | texts hl hr =>
    refine iff_of_false ?_ (not_not.2 (.inr ?_))
    · rw [ordering_of_texts hl hr]
      exact fun ⟨_, he⟩ => by cases he
    · rw [← Value.isSome_asText?, ← Value.isSome_asText?, hl, hr]
      rfl
  | strangers hn ht =>
    exact iff_of_true ⟨_, ordering_of_strangers hn ht⟩ (Value.not_comparable hn ht)

/-- Operands with keys get the answer of the keys. -/
theorem answers_of_keys (op : BinaryOp) (h : op.orders = true) (hc : Value.Comparable l r)
    (hp : ¬ Value.LosesPrecision l r) {a b : Key} (ha : l.key? = some a) (hb : r.key? = some b) :
    ∃ c, op.Answers l r c ∧ (c = true ↔ op.Relates a b) := by
  obtain ⟨o, ho, hab⟩ := ordering_compares op hc hp ha hb
  exact ⟨_, answers_of_ordering h ho, accepts_iff h hab⟩

/-- Operands that can be compared get an answer, and only a number that is not one does not
    get that of the keys. -/
theorem exists_answers (h : op.orders = true) (hc : Value.Comparable l r)
    (hp : ¬ Value.LosesPrecision l r) :
    ∃ c, op.Answers l r c ∧ (l = .decimal .nan ∨ r = .decimal .nan → c = false) ∧
      (l ≠ .decimal .nan → r ≠ .decimal .nan →
        ∃ a b, l.key? = some a ∧ r.key? = some b ∧ (c = true ↔ op.Relates a b)) := by
  by_cases hn : l = .decimal .nan ∨ r = .decimal .nan
  · refine ⟨_, answers_of_ordering h (ordering_of_nan hc hp hn), fun _ => op.accepts_none, ?_⟩
    intro hl hr
    exact absurd hn (not_or.2 ⟨hl, hr⟩)
  · obtain ⟨hl, hr⟩ := not_or.1 hn
    have hk : (l.isNumber = true ∨ l.isTextual = true) ∧
        (r.isNumber = true ∨ r.isTextual = true) := by
      rw [Value.Comparable, Bool.and_eq_true, Bool.and_eq_true] at hc
      rcases hc with hc | hc
      · exact ⟨.inl hc.1, .inl hc.2⟩
      · exact ⟨.inr hc.1, .inr hc.2⟩
    obtain ⟨a, ha⟩ := Value.exists_key hk.1 hl
    obtain ⟨b, hb⟩ := Value.exists_key hk.2 hr
    obtain ⟨c, hans, hab⟩ := answers_of_keys op h hc hp ha hb
    exact ⟨c, hans, fun hn' => absurd hn' hn, fun _ _ => ⟨a, b, ha, hb, hab⟩⟩

/-- Only operands that can be compared get an answer. -/
theorem Answers.comparable {c : Bool} (h : op.orders = true) (ha : op.Answers l r c) :
    Value.Comparable l r ∧ ¬ Value.LosesPrecision l r := by
  constructor
  · by_contra hc
    obtain ⟨clash, he⟩ := (apply_eq_kindClash_iff h).2 hc
    rw [Answers, he] at ha
    cases ha
  · intro hp
    rw [Answers, (apply_eq_precisionLoss_iff (.inr h) l r).2 hp] at ha
    cases ha

/-- Where there are keys, an answer is that of the keys. -/
theorem Answers.iff_relates {c : Bool} (h : op.orders = true) (hans : op.Answers l r c) {a b : Key}
    (ha : l.key? = some a) (hb : r.key? = some b) : c = true ↔ op.Relates a b := by
  obtain ⟨hc, hp⟩ := hans.comparable h
  obtain ⟨c', hans', hab⟩ := answers_of_keys op h hc hp ha hb
  rwa [hans.unique hans']

/-- A positive answer is about keys. -/
theorem Answers.exists_keys (h : op.orders = true) (hans : op.Answers l r true) :
    ∃ a b, l.key? = some a ∧ r.key? = some b ∧ op.Relates a b := by
  obtain ⟨hc, hp⟩ := hans.comparable h
  obtain ⟨c, hans', hnan, hkeys⟩ := exists_answers h hc hp
  obtain rfl := hans.unique hans'
  -- The answer would be negative if one of them were not a number.
  have hn : ¬ (l = .decimal .nan ∨ r = .decimal .nan) := fun hn => by cases hnan hn
  obtain ⟨a, b, ha, hb, hab⟩ := hkeys (fun hl => hn (.inl hl)) fun hr => hn (.inr hr)
  exact ⟨a, b, ha, hb, hab.1 rfl⟩

/-! ### One order -/

theorem not_less_self (l : Value) : ¬ less.Answers l l true := by
  intro h
  obtain ⟨a, b, ha, hb, hab⟩ := h.exists_keys rfl
  obtain rfl := Option.some.inj (ha.symm.trans hb)
  exact lt_irrefl a hab

theorem Answers.less_swap (h : less.Answers l r true) : less.Answers r l false := by
  obtain ⟨a, b, ha, hb, hab⟩ := h.exists_keys rfl
  obtain ⟨hc, hp⟩ := h.comparable rfl
  have hp' : ¬ Value.LosesPrecision r l := fun h => hp (h.symm.imp And.symm And.symm)
  obtain ⟨c, hans, hba⟩ := answers_of_keys less rfl hc.symm hp' hb ha
  obtain rfl : c = false := Bool.eq_false_iff.2 fun ht => lt_asymm hab (hba.1 ht)
  exact hans

theorem Answers.lessEqual_iff {c : Bool} (h : lessEqual.Answers l r c) :
    c = true ↔ less.Answers l r true ∨ ∃ a, l.key? = some a ∧ r.key? = some a := by
  obtain ⟨hc, hp⟩ := h.comparable rfl
  constructor
  · rintro rfl
    obtain ⟨a, b, ha, hb, hab⟩ := h.exists_keys rfl
    rcases lt_or_eq_of_le hab with hlt | rfl
    · obtain ⟨c, hans, hab'⟩ := answers_of_keys less rfl hc hp ha hb
      obtain rfl : c = true := hab'.2 hlt
      exact .inl hans
    · exact .inr ⟨a, ha, hb⟩
  · rintro (hl | ⟨a, ha, hb⟩)
    · obtain ⟨a, b, ha, hb, hab⟩ := hl.exists_keys rfl
      exact (h.iff_relates rfl ha hb).2 (le_of_lt hab)
    · exact (h.iff_relates rfl ha hb).2 (le_refl a)

theorem Answers.less_trans {m : Value} (h : less.Answers l m true) (h' : less.Answers m r true) :
    ¬ less.Answers l r false := by
  -- The outer operands may not be comparable at all, but if there is an answer it is theirs.
  intro hf
  obtain ⟨a, b, ha, hb, hab⟩ := h.exists_keys rfl
  obtain ⟨b', c, hb', hc, hbc⟩ := h'.exists_keys rfl
  obtain rfl := Option.some.inj (hb.symm.trans hb')
  exact absurd ((hf.iff_relates rfl ha hc).2 (lt_trans hab hbc)) Bool.false_ne_true

/-- An operator that asks which operand comes first clashes exactly when the operands are
    neither both numbers nor both characters or texts, and loses precision exactly when one
    is an integer beyond the limit and the other one a decimal. Otherwise it answers, and
    the answer is negative for the decimal that is not a number and that of the keys for
    all others. So the answers are those of one order, which for texts is also the order
    of the bytes that they are stored as. -/
theorem comparison_ordered :
    (∀ (op : BinaryOp) (l r : Value), op.orders = true →
      ((∃ clash, op.apply l r = .error (.kindClash clash)) ↔ ¬ Value.Comparable l r) ∧
      (op.apply l r = .error .precisionLoss ↔ Value.LosesPrecision l r) ∧
      (Value.Comparable l r → ¬ Value.LosesPrecision l r →
        ∃ c, op.Answers l r c ∧ (l = .decimal .nan ∨ r = .decimal .nan → c = false) ∧
          (l ≠ .decimal .nan → r ≠ .decimal .nan →
            ∃ a b, l.key? = some a ∧ r.key? = some b ∧ (c = true ↔ op.Relates a b)))) ∧
    (∀ l, ¬ less.Answers l l true) ∧
    (∀ l r, less.Answers l r true → less.Answers r l false) ∧
    (∀ l r c, lessEqual.Answers l r c →
      (c = true ↔ less.Answers l r true ∨ ∃ a, l.key? = some a ∧ r.key? = some a)) ∧
    (∀ l m r, less.Answers l m true → less.Answers m r true → ¬ less.Answers l r false) ∧
    (∀ s t : String, s.toList < t.toList ↔ Text.bytes s < Text.bytes t) := by
  refine ⟨?_, not_less_self, fun _ _ h => h.less_swap, fun _ _ _ h => h.lessEqual_iff,
    fun _ _ _ h h' => h.less_trans h', fun s t => (Text.bytes_lt_iff s t).symm⟩
  intro op l r h
  exact ⟨apply_eq_kindClash_iff h, apply_eq_precisionLoss_iff (.inr h) l r, exists_answers h⟩

/-- The largest integer that is promoted comes after the infinity below. -/
theorem comparison_ordered_infinity :
    greater.orders = true ∧
    Value.Comparable (.integer 9007199254740991) (.decimal (.infinite true)) ∧
    ¬ Value.LosesPrecision (.integer 9007199254740991) (.decimal (.infinite true)) ∧
    greater.Answers (.integer 9007199254740991) (.decimal (.infinite true)) true := by
  have hc : Value.Comparable (.integer 9007199254740991) (.decimal (.infinite true)) := .inl rfl
  have hp : ¬ Value.LosesPrecision (.integer 9007199254740991) (.decimal (.infinite true)) := by
    rintro (⟨⟨n, hn, hlt⟩, -⟩ | ⟨hd, -⟩)
    · obtain rfl := Value.integer.inj hn
      exact absurd hlt (by decide)
    · cases hd
  obtain ⟨c, hans, -, hkeys⟩ := (comparison_ordered.1 greater _ _ rfl).2.2 hc hp
  obtain ⟨a, b, ha, hb, hab⟩ := hkeys (by simp) (by simp)
  obtain rfl := Option.some.inj ha
  obtain rfl := Option.some.inj hb
  rw [hab.2 (Sum.inl_lt_inl_iff.2 (WithBot.bot_lt_coe _))] at hans
  exact ⟨rfl, hc, hp, hans⟩

end BinaryOp

end Tudlo
