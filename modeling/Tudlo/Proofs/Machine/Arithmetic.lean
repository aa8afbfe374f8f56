import Tudlo.Proofs.Machine.Actions
import Tudlo.Proofs.Operator.Exact

/-!
# Integer expressions

An *integer expression* is made of integers, variables that hold integers, signs and
the arithmetic operators (`Expr.OfIntegers`). It has an exact value among all integers
(`Expr.exact`), whatever fits and whatever does not.

To compute it, its operators are applied one after the other: those of the left operand,
then those of the right operand, and then the operator itself (`Expr.applications`). An
application is *sound* when it does not divide by zero and its result fits. The first
one that is not is where the computation ends, and the fault is blamed on it.

* `Expr.OfIntegers.ends`: the exact value, or the fault of the first application that is
  not sound;
* `Exec.eval_exact`: the same on a machine, which is left as it was.
-/

namespace Tudlo

/-! ### Applications -/

/-- An operator that is applied to integers. -/
inductive Application where
  /-- A sign before an integer. -/
  | unary (op : UnaryOp) (operand : Int) (pos : Position)
  /-- An operator between two integers. -/
  | binary (op : BinaryOp) (left right : Int) (pos : Position)

namespace Application

/-- The position of the operator. -/
def pos : Application → Position
  | .unary _ _ pos => pos
  | .binary _ _ _ pos => pos

/-- The operator has a divisor, and this is zero. -/
def DividesByZero : Application → Prop
  | .unary .. => False
  | .binary op _ y _ => op.divides = true ∧ y = 0

instance : (a : Application) → Decidable a.DividesByZero
  | .unary .. => inferInstanceAs (Decidable False)
  | .binary .. => inferInstanceAs (Decidable (_ ∧ _))

/-- The result fits, and if it is a remainder, so does its quotient. -/
def ResultFits : Application → Prop
  | .unary op x _ => Integer.Fits (op.exact x)
  | .binary op x y _ => op.ResultFits x y

instance : (a : Application) → Decidable a.ResultFits
  | .unary op x _ => inferInstanceAs (Decidable (Integer.Fits (op.exact x)))
  | .binary op x y _ => inferInstanceAs (Decidable (op.ResultFits x y))

/-- The operator does not divide by zero, and its result fits. -/
def Sound (a : Application) : Prop :=
  ¬ a.DividesByZero ∧ a.ResultFits

instance (a : Application) : Decidable a.Sound :=
  inferInstanceAs (Decidable (_ ∧ _))

/-- The fault that an application ends with when it is not sound. -/
def fault (a : Application) : Fault :=
  ⟨if a.DividesByZero then .divisionByZero else .overflow, a.pos⟩

variable {pos : Position}

/-! ### Applying signs and operators -/

theorem unary_of_sound {op : UnaryOp} {n : Int64} (hop : op ≠ .not)
    (h : (unary op n.toInt pos).Sound) :
    op.apply (.integer n) = .ok (.integer (Int64.ofInt (op.exact n.toInt))) := by
  cases op with
  | negate => exact congrArg integerResult (Integer.narrow?_of_fits h.2)
  | plus =>
    show _ = Except.ok (Value.integer (Int64.ofInt n.toInt))
    rw [Int64.ofInt_toInt]
    rfl
  | not => exact absurd rfl hop

theorem unary_of_not_sound {op : UnaryOp} {n : Int64} (hop : op ≠ .not)
    (h : ¬ (unary op n.toInt pos).Sound) :
    op.apply (.integer n) = .error (unary op n.toInt pos).fault.cause := by
  cases op with
  | negate =>
    have hf : ¬ Integer.Fits (-n.toInt) := fun hf => h ⟨id, hf⟩
    exact congrArg integerResult (Integer.narrow?_of_not_fits hf)
  | plus => exact absurd ⟨id, Integer.fits_toInt n⟩ h
  | not => exact absurd rfl hop

theorem apply_of_arithmetic {op : BinaryOp} (hop : op.family = .arithmetic) (a b : Int64) :
    op.apply (.integer a) (.integer b) = op.onIntegers a b := by
  rw [BinaryOp.apply, hop]
  rfl

theorem divisor_ne_zero {op : BinaryOp} {x : Int} {b : Int64}
    (h : ¬ (binary op x b.toInt pos).DividesByZero) (hd : op.divides = true) : b ≠ 0 :=
  fun hb => h ⟨hd, Integer.toInt_eq_zero_iff.2 hb⟩

theorem binary_of_sound {op : BinaryOp} {a b : Int64} (hop : op.family = .arithmetic)
    (h : (binary op a.toInt b.toInt pos).Sound) :
    op.apply (.integer a) (.integer b) =
      .ok (.integer (Int64.ofInt (op.exact a.toInt b.toInt))) := by
  rw [apply_of_arithmetic hop]
  exact BinaryOp.onIntegers_of_fits hop (divisor_ne_zero h.1) h.2

theorem binary_of_not_sound {op : BinaryOp} {a b : Int64} (hop : op.family = .arithmetic)
    (h : ¬ (binary op a.toInt b.toInt pos).Sound) :
    op.apply (.integer a) (.integer b) = .error (binary op a.toInt b.toInt pos).fault.cause := by
  rw [apply_of_arithmetic hop, fault]
  by_cases hz : (binary op a.toInt b.toInt pos).DividesByZero
  · rw [if_pos hz]
    obtain rfl : b = 0 := Integer.toInt_eq_zero_iff.1 hz.2
    exact BinaryOp.onIntegers_of_zero hz.1
  · rw [if_neg hz]
    exact BinaryOp.onIntegers_of_not_fits hop (divisor_ne_zero hz) fun hf => h ⟨hz, hf⟩

end Application

/-! ### Exact values -/

/-- The integer that a value is. Other values count as zero. -/
def Value.integral : Value → Int
  | .integer n => n.toInt
  | _ => 0

namespace Expr

variable {env : Environment} {e : Expr}

/-- The expression is made of integers only. -/
inductive OfIntegers (env : Environment) : Expr → Prop where
  | literal (n : Int64) (pos : Position) : OfIntegers env (.literal (.integer n) pos)
  | var {name : String} {type : ScalarType} {n : Int64} (pos : Position)
      (h : env.find? name = some ⟨type, .integer n⟩) : OfIntegers env (.var name pos)
  | unary {op : UnaryOp} {e : Expr} (pos : Position) (hop : op ≠ .not)
      (h : OfIntegers env e) : OfIntegers env (.unary op e pos)
  | binary {op : BinaryOp} {l r : Expr} (pos : Position) (hop : op.family = .arithmetic)
      (hl : OfIntegers env l) (hr : OfIntegers env r) : OfIntegers env (.binary op l r pos)

/-- The value of an integer expression among all integers. -/
def exact (env : Environment) : Expr → Int
  | .literal value _ => value.integral
  | .var name _ => (env.find? name).elim 0 fun v => v.value.integral
  | .assign _ e _ => e.exact env
  | .unary op e _ => op.exact (e.exact env)
  | .binary op l r _ => op.exact (l.exact env) (r.exact env)

/-- The operators of an integer expression in the order in which they are applied, with
    the exact values of their operands. -/
def applications (env : Environment) : Expr → List Application
  | .literal .. => []
  | .var .. => []
  | .assign _ e _ => e.applications env
  | .unary op e pos => e.applications env ++ [.unary op (e.exact env) pos]
  | .binary op l r pos =>
    l.applications env ++ (r.applications env ++ [.binary op (l.exact env) (r.exact env) pos])

/-! ### Computing -/

/-- How the computation of an integer expression ends. -/
inductive Ends (env : Environment) (e : Expr) : EStateM.Result Fault Environment Value → Prop where
  /-- With the exact value, which fits, if all applications are sound. -/
  | value (hs : ∀ a ∈ e.applications env, a.Sound) (hf : Integer.Fits (e.exact env)) :
      Ends env e (.ok (.integer (Int64.ofInt (e.exact env))) env)
  /-- With a fault at the first application that is not sound. -/
  | fault {before after : List Application} {a : Application}
      (ha : e.applications env = before ++ a :: after) (hs : ∀ b ∈ before, b.Sound)
      (hu : ¬ a.Sound) : Ends env e (.error a.fault env)

/-- What an operand that could be computed leaves for the operator. -/
theorem Ends.eq_ok {value : Value} {env' : Environment} (h : e.Ends env (.ok value env')) :
    ∃ n : Int64, value = .integer n ∧ n.toInt = e.exact env ∧ env = env' ∧
      ∀ a ∈ e.applications env, a.Sound := by
  cases h with
  | value hs hf => exact ⟨_, rfl, Integer.toInt_ofInt_of_fits hf, rfl, hs⟩

/-- An operand that could not be computed decides for the whole, as its operators come
    before all that have to be sound. -/
theorem Ends.of_operand {f : Fault} {env' : Environment} {e' : Expr}
    {first last : List Application} (h : e'.Ends env (.error f env'))
    (ha : e.applications env = first ++ (e'.applications env ++ last))
    (hs : ∀ a ∈ first, a.Sound) : e.Ends env (.error f env') := by
  cases h with
  | @fault before after a ha' hs' hu =>
    have ha : e.applications env = (first ++ before) ++ a :: (after ++ last) := by
      rw [ha, ha']
      simp
    refine .fault ha ?_ hu
    intro b hb
    rcases List.mem_append.1 hb with hb | hb
    · exact hs b hb
    · exact hs' b hb

/-- When all other applications are sound, the last one decides. -/
theorem ends_of_last {before : List Application} {a : Application}
    {x : EStateM Fault Environment Value} (ha : e.applications env = before ++ [a])
    (hs : ∀ b ∈ before, b.Sound) (hf : a.Sound → Integer.Fits (e.exact env))
    (hx : a.Sound → x env = .ok (.integer (Int64.ofInt (e.exact env))) env)
    (hx' : ¬ a.Sound → x env = .error a.fault env) : e.Ends env (x env) := by
  by_cases h : a.Sound
  · rw [hx h]
    refine .value ?_ (hf h)
    intro b hb
    rw [ha, List.mem_append, List.mem_singleton] at hb
    rcases hb with hb | rfl
    · exact hs b hb
    · exact h
  · rw [hx' h]
    exact .fault ha hs h

/-- An integer is its own value. -/
theorem ends_of_integer {n : Int64} (ha : e.applications env = [])
    (hn : e.exact env = n.toInt) : e.Ends env (.ok (.integer n) env) := by
  have hs : ∀ a ∈ e.applications env, a.Sound := by simp [ha]
  have h := Ends.value hs (hn ▸ Integer.fits_toInt n)
  rwa [hn, Int64.ofInt_toInt] at h

theorem Ends.unary {op : UnaryOp} (pos : Position) (hop : op ≠ .not)
    (h : e.Ends env (e.eval env)) :
    (Expr.unary op e pos).Ends env ((Expr.unary op e pos).eval env) := by
  cases he : e.eval env with
  | error f env' =>
    rw [he] at h
    rw [Expr.eval, bind_apply_of_error he]
    exact h.of_operand (List.nil_append _).symm (by simp)
  | ok value env' =>
    rw [he] at h
    obtain ⟨n, rfl, hn, rfl, hs⟩ := h.eq_ok
    rw [Expr.eval, bind_apply_of_ok he]
    refine ends_of_last rfl hs And.right ?_ ?_
    · intro ha
      rw [Expr.exact]
      rw [← hn] at ha ⊢
      rw [Application.unary_of_sound hop ha]
      rfl
    · intro ha
      rw [← hn] at ha ⊢
      rw [Application.unary_of_not_sound hop ha]
      rfl

theorem Ends.binary {op : BinaryOp} {l r : Expr} (pos : Position)
    (hop : op.family = .arithmetic) (hl : l.Ends env (l.eval env))
    (hr : r.Ends env (r.eval env)) :
    (Expr.binary op l r pos).Ends env ((Expr.binary op l r pos).eval env) := by
  cases hel : l.eval env with
  | error f env' =>
    rw [hel] at hl
    rw [Expr.eval, bind_apply_of_error hel]
    exact hl.of_operand (List.nil_append _).symm (by simp)
  | ok value env' =>
    rw [hel] at hl
    obtain ⟨a, rfl, ha, rfl, hsl⟩ := hl.eq_ok
    rw [Expr.eval, bind_apply_of_ok hel]
    -- The right operand is computed where the left one left the variables as they were.
    cases her : r.eval env with
    | error f env' =>
      rw [her] at hr
      rw [bind_apply_of_error her]
      exact hr.of_operand rfl hsl
    | ok value env' =>
      rw [her] at hr
      obtain ⟨b, rfl, hb, rfl, hsr⟩ := hr.eq_ok
      rw [bind_apply_of_ok her]
      refine ends_of_last (List.append_assoc _ _ _).symm ?_ (fun h => h.2.1) ?_ ?_
      · intro c hc
        rcases List.mem_append.1 hc with hc | hc
        · exact hsl c hc
        · exact hsr c hc
      · intro h
        rw [Expr.exact]
        rw [← ha, ← hb] at h ⊢
        rw [Application.binary_of_sound hop h]
        rfl
      · intro h
        rw [← ha, ← hb] at h ⊢
        rw [Application.binary_of_not_sound hop h]
        rfl

/-- An integer expression is computed up to the first application that is not sound. -/
theorem OfIntegers.ends (h : e.OfIntegers env) : e.Ends env (e.eval env) := by
  induction h with
  | literal n pos => exact ends_of_integer rfl rfl
  | @var name type n pos h =>
    have hn : (Expr.var name pos).exact env = n.toInt := by
      rw [Expr.exact, h]
      rfl
    rw [Expr.eval, bind_apply_of_ok (Environment.resolve_of_find? h)]
    exact ends_of_integer rfl hn
  | unary pos hop _ ih => exact ih.unary pos hop
  | binary pos hop _ _ ihl ihr => exact ihl.binary pos hop ihr

end Expr

/-- An integer expression has its exact value if all applications are sound. If not, it
    ends with the fault of the first one that is not, at its position, which is a division
    by zero exactly when its divisor is zero. The machine stays as it is. -/
theorem Exec.eval_exact {m : Machine} {e : Expr} (h : e.OfIntegers m.env) :
    ((∀ a ∈ e.applications m.env, a.Sound) →
      ∃ n : Int64, eval e m = .ok (.integer n) m ∧ n.toInt = e.exact m.env) ∧
    ((¬ ∀ a ∈ e.applications m.env, a.Sound) →
      ∃ before a after, e.applications m.env = before ++ a :: after ∧
        (∀ b ∈ before, b.Sound) ∧ ¬ a.Sound ∧
        ∃ cause, eval e m = .error (.fault ⟨cause, a.pos⟩) m ∧
          (cause = .divisionByZero ∧ a.DividesByZero ∨
            cause = .overflow ∧ ¬ a.DividesByZero)) := by
  have hends := h.ends
  generalize hr : e.eval m.env = result at hends
  cases hends with
  | value hs hf =>
    refine ⟨fun _ => ⟨_, eval_of_ok hr, Integer.toInt_ofInt_of_fits hf⟩, fun hn => absurd hs hn⟩
  | @fault before after a ha hs hu =>
    refine ⟨fun hall => ?_, fun _ => ⟨before, a, after, ha, hs, hu, _, eval_of_error hr, ?_⟩⟩
    · exact absurd (hall a (by simp [ha])) hu
    · by_cases hz : a.DividesByZero
      · exact .inl ⟨if_pos hz, hz⟩
      · exact .inr ⟨if_neg hz, hz⟩

/-- The expression `1 + n / -1 * (5 / 0)`. -/
def twiceFaulty : Expr :=
  .binary .add (.literal (.integer 1) ⟨1, 1⟩)
    (.binary .mul
      (.binary .div (.var "n" ⟨1, 5⟩) (.unary .negate (.literal (.integer 1) ⟨1, 10⟩) ⟨1, 9⟩) ⟨1, 7⟩)
      (.binary .div (.literal (.integer 5) ⟨1, 15⟩) (.literal (.integer 0) ⟨1, 19⟩) ⟨1, 17⟩)
      ⟨1, 12⟩)
    ⟨1, 3⟩

/-- A machine where `n` is the least integer. -/
def leastInteger : Machine :=
  { env := ⟨⟨[("n", ⟨.integer, .integer Int64.minValue⟩)]⟩, []⟩ }

/-- Both divisions cannot be done, and the first one is blamed. -/
theorem Exec.eval_exact_twiceFaulty :
    twiceFaulty.OfIntegers leastInteger.env ∧
    (¬ ∀ a ∈ twiceFaulty.applications leastInteger.env, a.Sound) ∧
    ∃ before a after, twiceFaulty.applications leastInteger.env = before ++ a :: after ∧
      (∀ b ∈ before, b.Sound) ∧ ¬ a.Sound ∧
      ∃ cause, eval twiceFaulty leastInteger = .error (.fault ⟨cause, a.pos⟩) leastInteger ∧
        (cause = .divisionByZero ∧ a.DividesByZero ∨
          cause = .overflow ∧ ¬ a.DividesByZero) := by
  have h : twiceFaulty.OfIntegers leastInteger.env := by
    refine .binary _ rfl (.literal _ _) (.binary _ rfl ?_ ?_)
    · exact .binary _ rfl (.var _ rfl) (.unary _ (by decide) (.literal _ _))
    · exact .binary _ rfl (.literal _ _) (.literal _ _)
  have hu : ¬ ∀ a ∈ twiceFaulty.applications leastInteger.env, a.Sound := by decide
  exact ⟨h, hu, (Exec.eval_exact h).2 hu⟩

end Tudlo
