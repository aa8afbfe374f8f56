import Tudlo.Proofs.Machine.Frames
import Tudlo.Proofs.Machine.Joining
import Tudlo.Proofs.Machine.Simulation
import Tudlo.Proofs.Operator.Exact

/-!
# Loops that count

A loop that declares a counter, goes on as long as the counter is not above some integer, and
adds one to it after each round, counts from the one integer to the other. Its block may do
what it wants, as long as it does not write to the counter. Then there is one round for each
of the integers, in order, and each of them starts with the counter alone in the frame of the
loop (`CountedLoop.unrolled`). One thing can go wrong outside of the block: after the largest
integer there is no next one.

The counter is the only thing that a round hands over to the next step, so what matters is
that the block leaves it alone. A block that does not write to any name in some frame leaves
this frame exactly as it is (`Frame.Held`).

* `Integer.upTo`: the integers that are counted;
* `CountedLoop.rounds_unrolled`: what is left of the loop at some counter, by induction;
* `CountedLoop.exec_counted`: the whole loop.
-/

namespace Tudlo

/-! ### Frames that are not written to -/

namespace Frame

variable {f g : Frame} {fs gs : List Frame} {n : Nat} {name : String} {value : Value}

/-- The frames are the same, and `f` is the one below the first `n`. -/
def Held (f : Frame) (n : Nat) (fs gs : List Frame) : Prop :=
  fs = gs ∧ fs[n]? = some f

/-- An assignment goes to a frame that has the name. -/
theorem getElem?_of_assignIn? (hn : f.find? name = none) (hf : fs[n]? = some f)
    (h : Environment.assignIn? name value fs = some gs) : gs[n]? = some f := by
  induction fs generalizing n gs with
  | nil => cases h
  | cons g fs ih =>
    rw [Environment.assignIn?] at h
    cases hg : g.assign? name value with
    | some g' =>
      rw [hg] at h
      obtain rfl := Option.some.inj h
      cases n with
      | zero =>
        obtain rfl := Option.some.inj hf
        rw [Frame.assign?, hn] at hg
        cases hg
      | succ n => exact hf
    | none =>
      rw [hg] at h
      obtain ⟨gs, ha, rfl⟩ := Option.map_eq_some_iff.1 h
      cases n with
      | zero => exact hf
      | succ n => exact @ih gs n hf ha

/-- Execution keeps a frame in which it does not write. -/
theorem held_simulation (f : Frame) :
    Environment.Simulation (fun name => f.find? name = none) (Held f) where
  findSome?_eq h name := by rw [h.1]
  assignIn? := by
    rintro n fs _ ⟨rfl, hf⟩ name hn value
    cases ha : Environment.assignIn? name value fs with
    | none => exact .none
    | some gs => exact .some ⟨rfl, getElem?_of_assignIn? hn hf ha⟩
  insert h name _ v := by
    obtain ⟨he, hf⟩ := h
    obtain ⟨rfl, rfl⟩ := List.cons.inj he
    exact ⟨rfl, hf⟩
  push h := ⟨congrArg _ h.1, h.2⟩
  pop := by
    rintro n f' g fs gs ⟨he, hf⟩
    obtain ⟨rfl, rfl⟩ := List.cons.inj he
    have hne : fs ≠ [] := by
      rintro rfl
      cases hf
    exact ⟨⟨rfl, hf⟩, hne, hne⟩

end Frame

/-- A block that does not write to the names in the innermost frame leaves this frame as it
    is. -/
theorem Block.inner_of_exec {b : Block} {limit : Nat} {m m' : Machine}
    (hw : ∀ name ∈ b.written, m.env.inner.find? name = none) (h : b.exec limit m = .ok () m') :
    m'.env.inner = m.env.inner := by
  have hm : m.Like (Frame.Held m.env.inner 0) m := ⟨⟨rfl, rfl⟩, rfl, rfl⟩
  have hl := Block.exec_of_simulation (Frame.held_simulation m.env.inner) hw limit 0 hm
  rw [h] at hl
  cases hl with
  | ok hl => exact Option.some.inj hl.2.env.2

/-- Whatever an action leaves in a frame of its own does not matter. -/
theorem Exec.framed_eq {α : Type} {x y : Exec α} {m : Machine}
    (h : SameEnd (fun m' n' : Machine => m'.pop = n'.pop) (x m.push) (y m.push)) :
    framed x m = framed y m := by
  rw [framed, framed]
  generalize x m.push = r, y m.push = r' at h ⊢
  cases h with
  | ok h =>
    obtain ⟨rfl, hp⟩ := h
    exact congrArg _ hp
  | error h =>
    obtain ⟨rfl, hp⟩ := h
    exact congrArg _ hp

/-! ### Counting -/

namespace Integer

variable {a b c : Int64}

/-- The integers from `a` to `b`. -/
def upTo (a b : Int64) : List Int64 :=
  (List.range (b.toInt - a.toInt + 1).toNat).map fun k : Nat => Int64.ofInt (a.toInt + k)

@[simp] theorem length_upTo (a b : Int64) :
    (upTo a b).length = (b.toInt - a.toInt + 1).toNat := by
  rw [upTo, List.length_map, List.length_range]

/-- Nothing wraps around. -/
theorem toInt_upTo (a b : Int64) : (upTo a b).map Int64.toInt =
    (List.range (b.toInt - a.toInt + 1).toNat).map fun k : Nat => a.toInt + k := by
  rw [upTo, List.map_map]
  refine List.map_congr_left fun k hk => toInt_ofInt_of_fits ?_
  rw [List.mem_range] at hk
  have ha := (fits_toInt a).1
  have hb := (fits_toInt b).2
  exact ⟨by omega, by omega⟩

theorem upTo_of_lt (h : b.toInt < a.toInt) : upTo a b = [] := by
  rw [← List.length_eq_zero_iff, length_upTo]
  omega

theorem upTo_of_eq (h : a.toInt = b.toInt) : upTo a b = [a] := by
  rw [upTo, h, show (b.toInt - b.toInt + 1).toNat = 1 by omega]
  simp [← h]

/-- Counting goes on with the next integer. -/
theorem upTo_of_le (h : a.toInt ≤ b.toInt) (hc : c.toInt = a.toInt + 1) :
    upTo a b = a :: upTo c b := by
  have hn : (b.toInt - a.toInt + 1).toNat = (b.toInt - c.toInt + 1).toNat + 1 := by omega
  rw [upTo, hn, List.range_succ_eq_map, List.map_cons, List.map_map, upTo]
  congr 1
  · simp
  · refine List.map_congr_left fun k _ => ?_
    rw [Function.comp_apply, hc]
    congr 1
    push_cast
    omega

theorem exists_upTo (h : a.toInt ≤ b.toInt) : ∃ ks, upTo a b = a :: ks := by
  have hn : (b.toInt - a.toInt + 1).toNat = (b.toInt - a.toInt).toNat + 1 := by omega
  rw [upTo, hn, List.range_succ_eq_map, List.map_cons]
  exact ⟨_, congrArg (· :: _) (by simp)⟩

/-- Every integer but the largest one has a next one. -/
theorem fits_succ_iff : Fits (a.toInt + 1) ↔ a ≠ Int64.maxValue := by
  have hm : Int64.maxValue.toInt = Int.pow 2 63 - 1 := by decide
  have ha := fits_toInt a
  rw [Ne, ← Int64.toInt_inj, hm]
  rw [Fits] at ha ⊢
  omega

end Integer

/-- A loop that counts. -/
structure CountedLoop where
  /-- The name of the counter. -/
  name : String
  /-- Where counting starts. -/
  first : Int64
  /-- Where counting ends. -/
  last : Int64
  /-- What is done in each round. -/
  body : Block
  /-- The block does not declare the name, assign to it or read into it. -/
  unwritten : name ∉ body.written
  /-- The position of the loop. -/
  pos : Position
  /-- The position of its first clause. -/
  initialPos : Position
  /-- The position of its last clause. -/
  stepPos : Position
  /-- The position of the plus sign in the last clause. -/
  plusPos : Position

/-- The machine with another innermost frame. -/
def Machine.withInner (m : Machine) (f : Frame) : Machine :=
  { m with env := { m.env with inner := f } }

/-- Replaces the innermost frame. -/
def Exec.setInner (f : Frame) : Exec Unit :=
  modify fun m => m.withInner f

theorem Exec.setInner_apply (f : Frame) (m : Machine) : setInner f m = .ok () (m.withInner f) :=
  rfl

namespace CountedLoop

variable (l : CountedLoop)

/-! ### The loop as a statement -/

/-- The clause that declares the counter. -/
def initial (p : Position) : Statement :=
  .declare .integer [l.name] (some (.literal (.integer l.first) p)) l.initialPos

/-- The clause that decides whether there is another round. -/
def condition (p q r : Position) : Expr :=
  .binary .lessEqual (.var l.name p) (.literal (.integer l.last) q) r

/-- The clause that adds one to the counter. -/
def step (p q r : Position) : Statement :=
  .compute (.assign l.name (.binary .add (.var l.name p) (.literal (.integer 1) q) l.plusPos) r)
    l.stepPos

/-- The statement is the loop. Where its other parts stand does not matter. -/
inductive Is : Statement → Prop
  | mk (p₁ p₂ p₃ p₄ p₅ p₆ p₇ : Position) :
      Is (.loop (l.initial p₁) (l.condition p₂ p₃ p₄) (l.step p₅ p₆ p₇) l.body l.pos)

/-! ### The loop as a list of rounds -/

/-- The values that the counter has, in order. -/
def counters : List Int64 :=
  Integer.upTo l.first l.last

/-- The frame of the loop with the counter, and with nothing else. -/
def frame (k : Int64) : Frame :=
  ⟨[(l.name, ⟨.integer, .integer k⟩)]⟩

/-- One round for each of the counters. It executes the block with the counter alone in the
    frame of the loop. -/
def rounds (limit : Nat) : List Int64 → Exec Unit
  | [] => pure ()
  | k :: ks => do
    Exec.setInner (l.frame k)
    l.body.exec limit
    Exec.record (.executing l.stepPos)
    rounds limit ks

/-- The end of a loop that has come to `k`. No integer follows the largest one. -/
def finish (k : Int64) : Exec Unit :=
  if k ≤ l.last ∧ l.last = Int64.maxValue then Exec.fail .overflow l.plusPos else pure ()

/-- What the loop does: one round after the other, in a frame of its own. -/
def unrolled (limit : Nat) : Exec Unit := do
  Exec.record (.executing l.pos)
  Exec.framed do
    Exec.record (.executing l.initialPos)
    l.rounds limit l.counters
    l.finish l.first

variable {l} {k : Int64} {m n : Machine}

@[simp] theorem find?_frame_self : (l.frame k).find? l.name = some ⟨.integer, .integer k⟩ := by
  simp [Frame.find?, frame]

theorem find?_frame_of_ne {name : String} (h : name ≠ l.name) : (l.frame k).find? name = none := by
  simp [Frame.find?, frame, List.lookup_cons, beq_false_of_ne h]

theorem assign?_frame (j : Int64) :
    (l.frame k).assign? l.name (.integer j) = some (l.frame j) := by
  rw [Frame.assign?, find?_frame_self]
  simp [Frame.insert, Frame.replace, frame]

theorem find?_of_inner {env : Environment} (h : env.inner = l.frame k) :
    env.find? l.name = some ⟨.integer, .integer k⟩ := by
  simp [Environment.find?, Environment.frames, h]

theorem assign?_of_inner {env : Environment} (h : env.inner = l.frame k) (j : Int64) :
    env.assign? l.name (.integer j) = some { env with inner := l.frame j } := by
  rw [Environment.assign?, h, assign?_frame]

/-! ### The clauses -/

theorem exec_initial (limit : Nat) (p : Position) (m : Machine) :
    (l.initial p).exec limit m.push =
      .ok () ((m.push.emit (.executing l.initialPos)).withInner (l.frame l.first)) :=
  rfl

/-- There is another round as long as the counter is not above the last integer. -/
theorem eval_condition (h : m.env.inner = l.frame k) (p q r : Position) :
    (do return (← Exec.eval (l.condition p q r)).truthy : Exec Bool) m =
      .ok (decide (k.toInt ≤ l.last.toInt)) m := by
  have hc : (compare k.toInt l.last.toInt).isLE = decide (k.toInt ≤ l.last.toInt) := by
    rw [Bool.eq_iff_iff, Int.isLE_compare, decide_eq_true_eq]
  have he : (l.condition p q r).eval m.env =
      .ok (.boolean (compare k.toInt l.last.toInt).isLE) m.env := by
    rw [condition, Expr.eval, bind_apply_of_ok (Expr.eval_var_of_find? (find?_of_inner h) p)]
    rfl
  rw [bind_apply_of_ok (Exec.eval_of_ok he), hc]
  rfl

/-- The sum is computed as far as there is one. -/
theorem eval_sum (h : m.env.inner = l.frame k) (p q : Position) :
    (Expr.binary .add (.var l.name p) (.literal (.integer 1) q) l.plusPos).eval m.env =
      blame l.plusPos (integerResult (Integer.narrow? (k.toInt + 1))) m.env := by
  rw [Expr.eval, bind_apply_of_ok (Expr.eval_var_of_find? (find?_of_inner h) p)]
  rfl

/-- The counter goes on to the next integer. -/
theorem exec_step {j : Int64} (h : m.env.inner = l.frame k) (hj : j.toInt = k.toInt + 1)
    (limit : Nat) (p q r : Position) :
    (l.step p q r).exec limit m =
      .ok () ((m.emit (.executing l.stepPos)).withInner (l.frame j)) := by
  have hs := eval_sum h p q
  rw [← hj, Integer.narrow?_toInt] at hs
  have ha : (Expr.assign l.name (.binary .add (.var l.name p) (.literal (.integer 1) q) l.plusPos)
      r).eval m.env = .ok (.integer j) { m.env with inner := l.frame j } := by
    rw [Expr.eval, bind_apply_of_ok hs,
      bind_apply_of_ok (Environment.write_of_assign? (assign?_of_inner h j))]
    rfl
  rw [step, Statement.exec, bind_apply_of_ok (Exec.record_apply _ m),
    bind_apply_of_ok (Exec.eval_of_ok (m := m.emit _) ha)]
  rfl

/-- There is no integer after the largest one. -/
theorem exec_step_max (h : m.env.inner = l.frame k) (hk : k = Int64.maxValue) (limit : Nat)
    (p q r : Position) :
    (l.step p q r).exec limit m =
      .error (.fault ⟨.overflow, l.plusPos⟩) (m.emit (.executing l.stepPos)) := by
  have hs := eval_sum h p q
  rw [Integer.narrow?_of_not_fits fun hf => Integer.fits_succ_iff.1 hf hk] at hs
  have ha : (Expr.assign l.name (.binary .add (.var l.name p) (.literal (.integer 1) q) l.plusPos)
      r).eval m.env = .error ⟨.overflow, l.plusPos⟩ m.env := by
    rw [Expr.eval]
    exact bind_apply_of_error hs
  rw [step, Statement.exec, bind_apply_of_ok (Exec.record_apply _ m)]
  exact bind_apply_of_error (Exec.eval_of_error (m := m.emit _) ha)

/-! ### The rounds -/

/-- The block leaves the counter alone in the frame of the loop. -/
theorem inner_of_body {limit : Nat} (h : m.env.inner = l.frame k)
    (hb : l.body.exec limit m = .ok () n) : n.env.inner = l.frame k := by
  rw [← h]
  refine Block.inner_of_exec (fun name hw => ?_) hb
  rw [h]
  exact find?_frame_of_ne fun he => l.unwritten (he ▸ hw)

theorem outer_of_body {limit : Nat} (h : m.env.outer ≠ [])
    (hb : l.body.exec limit m = .ok () n) : n.env.outer ≠ [] := by
  have hs := (l.body.exec_keeps limit).outer.of_ok hb
  intro hn
  rw [Machine.outerShape, Machine.outerShape, Environment.outerShape, hn, List.map_nil] at hs
  exact h (List.map_eq_nil_iff.1 hs.symm)

/-- At its end a frame can be taken away whatever is in it. -/
theorem pop_withInner (h : m.env.outer ≠ []) (f : Frame) : (m.withInner f).pop = m.pop := by
  obtain ⟨⟨g, gs⟩, output, input, trace⟩ := m
  cases gs with
  | nil => exact absurd rfl h
  | cons g' gs => rfl

theorem finish_of_lt (h : l.last.toInt < k.toInt) : l.finish k = pure () := by
  rw [finish, if_neg]
  rw [Int64.le_iff_toInt_le]
  omega

/-- The largest integer is the last one. -/
theorem finish_of_max (h : k.toInt ≤ l.last.toInt) (hk : k = Int64.maxValue) :
    l.finish k = Exec.fail .overflow l.plusPos ∧ Integer.upTo k l.last = [k] := by
  have he : k.toInt = l.last.toInt := Int.le_antisymm h (hk ▸ l.last.toInt_le)
  have hl : l.last = k := (Int64.toInt_inj.1 he).symm
  exact ⟨if_pos ⟨Int64.le_iff_toInt_le.2 h, hl.trans hk⟩, Integer.upTo_of_eq he⟩

/-- Whether the loop ends well does not depend on how far it has come. -/
theorem finish_succ {j : Int64} (hj : j.toInt = k.toInt + 1) : l.finish j = l.finish k := by
  have hm := j.toInt_le
  refine if_congr ?_ rfl rfl
  rw [Int64.le_iff_toInt_le, Int64.le_iff_toInt_le, ← Int64.toInt_inj]
  omega

theorem rounds_cons (limit : Nat) (ks : List Int64) (x : Exec Unit) (n : Machine) :
    (do l.rounds limit (k :: ks); x) n =
      (do l.body.exec limit; Exec.record (.executing l.stepPos); l.rounds limit ks; x : Exec Unit)
        (n.withInner (l.frame k)) := by
  rw [rounds]
  simp only [bind_assoc]
  exact bind_apply_of_ok (Exec.setInner_apply _ n)

/-- What is left of the loop when the counter has come to `k` is one round for each of the
    integers from there on. -/
theorem rounds_unrolled {limit budget : Nat} (p₂ p₃ p₄ p₅ p₆ p₇ : Position)
    (ho : n.env.outer ≠ []) (hb : (Integer.upTo k l.last).length < budget) :
    SameEnd (fun m' n' : Machine => m'.pop = n'.pop)
      (Exec.rounds (do return (← Exec.eval (l.condition p₂ p₃ p₄)).truthy)
        (do l.body.exec limit; (l.step p₅ p₆ p₇).exec limit) budget (n.withInner (l.frame k)))
      ((do l.rounds limit (Integer.upTo k l.last); l.finish k : Exec Unit) n) := by
  induction budget generalizing k n with
  | zero => exact absurd hb (Nat.not_lt_zero _)
  | succ budget ih =>
    rw [Exec.rounds, bind_apply_of_ok (eval_condition rfl p₂ p₃ p₄)]
    by_cases hk : k.toInt ≤ l.last.toInt
    · obtain ⟨ks, hu⟩ := Integer.exists_upTo hk
      rw [if_pos (decide_eq_true hk), hu, rounds_cons]
      cases hx : l.body.exec limit (n.withInner (l.frame k)) with
      | error halt m' =>
        rw [bind_apply_of_error (bind_apply_of_error hx), bind_apply_of_error hx]
        exact .error ⟨rfl, rfl⟩
      | ok u m' =>
        have hi : m'.env.inner = l.frame k := inner_of_body rfl hx
        rw [bind_apply_of_ok hx, bind_apply_of_ok (Exec.record_apply _ m')]
        by_cases hm : k = Int64.maxValue
        · -- This was the last round, and the counter cannot go on.
          obtain ⟨hf, hu'⟩ := finish_of_max hk hm
          obtain ⟨-, rfl⟩ := List.cons.inj (hu.symm.trans hu')
          have hs := exec_step_max hi hm limit p₅ p₆ p₇
          rw [bind_apply_of_error ((bind_apply_of_ok hx).trans hs), hf]
          exact .error ⟨rfl, rfl⟩
        · -- The counter goes on, and what is left is a shorter loop.
          have hj := Integer.toInt_ofInt_of_fits (Integer.fits_succ_iff.2 hm)
          obtain ⟨-, rfl⟩ := List.cons.inj (hu.symm.trans (Integer.upTo_of_le hk hj))
          have hs := exec_step hi hj limit p₅ p₆ p₇
          have ho' : m'.env.outer ≠ [] := outer_of_body (m := n.withInner (l.frame k)) ho hx
          rw [hu, List.length_cons] at hb
          rw [bind_apply_of_ok ((bind_apply_of_ok hx).trans hs), ← finish_succ hj]
          exact ih ho' (Nat.lt_of_succ_lt_succ hb)
    · have hl : l.last.toInt < k.toInt := by omega
      rw [if_neg (by simpa using hl), Integer.upTo_of_lt hl, finish_of_lt hl]
      exact .ok ⟨rfl, pop_withInner ho _⟩

/-- The rounds leave the names in the frames around the loop as they are. -/
theorem rounds_keeps (limit : Nat) (ks : List Int64) :
    Keeps Machine.outerShape (l.rounds limit ks) := by
  induction ks with
  | nil => exact .pure ()
  | cons k ks ih =>
    refine .bind (.modify fun _ => rfl) fun _ => ?_
    refine .bind (l.body.exec_keeps limit).outer fun _ => ?_
    exact .bind (Exec.record_keeps _).outer fun _ => ih

/-- The loop does what its rounds do. -/
theorem exec_eq_unrolled {s : Statement} (hs : l.Is s) {limit : Nat}
    (hl : l.counters.length < limit) (m : Machine) : s.exec limit m = l.unrolled limit m := by
  cases hs with
  | mk p₁ p₂ p₃ p₄ p₅ p₆ p₇ =>
    rw [Statement.exec, unrolled, bind_apply_of_ok (Exec.record_apply _ m),
      bind_apply_of_ok (Exec.record_apply _ m)]
    refine Exec.framed_eq ?_
    rw [bind_apply_of_ok (exec_initial limit p₁ _), bind_apply_of_ok (Exec.record_apply _ _)]
    exact rounds_unrolled p₂ p₃ p₄ p₅ p₆ p₇ (List.cons_ne_nil _ _) hl

/-! ### Printing the counter -/

theorem exec_body_of_print {p q r : Position} (hb : l.body = ⟨[.print (.var l.name p) q], r⟩)
    (limit : Nat) (h : m.env.inner = l.frame k) :
    ∃ n, l.body.exec limit m = .ok () n ∧ n.output = m.output ++ k.toInt.repr := by
  have hf : m.push.env.find? l.name = some ⟨.integer, .integer k⟩ :=
    (m.env.find?_push l.name).trans (find?_of_inner h)
  have he := Expr.eval_var_of_find? hf p
  rw [hb, Block.exec, Statement.execAll_singleton]
  exact ⟨_, Exec.framed_of_ok (Statement.exec_print_of_eval he limit q), rfl⟩

theorem rounds_of_print {p q r : Position} (hb : l.body = ⟨[.print (.var l.name p) q], r⟩)
    (limit : Nat) (ks : List Int64) (m : Machine) :
    ∃ n, l.rounds limit ks m = .ok () n ∧
      n.output = m.output ++ String.join ((ks.map Int64.toInt).map Int.repr) := by
  induction ks generalizing m with
  | nil => exact ⟨m, rfl, by simp⟩
  | cons k ks ih =>
    obtain ⟨m₁, hx, ho₁⟩ := exec_body_of_print (m := m.withInner (l.frame k)) hb limit rfl
    obtain ⟨n, hn, ho⟩ := ih (m₁.emit (.executing l.stepPos))
    refine ⟨n, ?_, ?_⟩
    · rw [rounds, bind_apply_of_ok (Exec.setInner_apply _ m), bind_apply_of_ok hx,
        bind_apply_of_ok (Exec.record_apply _ m₁), hn]
    · rw [ho, List.map_cons, List.map_cons, String.join_cons, ← String.append_assoc]
      exact congrArg (· ++ _) ho₁

theorem finish_keeps (k : Int64) : Keeps Machine.output (l.finish k) := by
  rw [finish]
  split
  · exact .throw _
  · exact .pure ()

theorem output_of_print {p q r : Position} (hb : l.body = ⟨[.print (.var l.name p) q], r⟩)
    (limit : Nat) (m : Machine) : (stateAfter (l.unrolled limit) m).output =
      m.output ++ String.join ((l.counters.map Int64.toInt).map Int.repr) := by
  rw [unrolled, stateAfter_bind_of_ok (Exec.record_apply _ m), Exec.stateAfter_framed,
    stateAfter_bind_of_ok (Exec.record_apply _ _)]
  obtain ⟨n, hn, ho⟩ := rounds_of_print hb limit l.counters
    (((m.emit (.executing l.pos)).push).emit (.executing l.initialPos))
  rw [stateAfter_bind_of_ok hn]
  exact (finish_keeps l.first n).trans ho

/-! ### The whole loop -/

/-- A loop that counts has one round for each integer from the first to the last.

    As long as it may go round often enough, it does exactly what its rounds do, one after the
    other: a round starts with the counter alone in the frame of the loop, the first one that
    fails is the end, and when all succeed so does the loop, unless there is no integer after
    the last one. The counters are the integers from the first to the last. Nothing that a
    round declares is there in the next one, as the frames around the loop always have the
    names that they had before, also in the end. When the block prints the counter, the
    integers are printed. -/
theorem exec_counted (l : CountedLoop) {s : Statement} (hs : l.Is s) {limit : Nat}
    (hl : l.counters.length < limit) (m : Machine) :
    s.exec limit m = l.unrolled limit m ∧
    (l.counters.map Int64.toInt = (List.range (l.last.toInt - l.first.toInt + 1).toNat).map
      fun k : Nat => l.first.toInt + k) ∧
    (∀ ks m₀ m', m₀.env.outer = m.env.frames → l.rounds limit ks m₀ = .ok () m' →
      m'.env.outerShape = m.env.shape) ∧
    (stateAfter (s.exec limit) m).env.shape = m.env.shape ∧
    ∀ p q r, l.body = ⟨[.print (.var l.name p) q], r⟩ →
      (stateAfter (s.exec limit) m).output = m.output ++ String.join
        ((List.range (l.last.toInt - l.first.toInt + 1).toNat).map
          fun k : Nat => (l.first.toInt + k).repr) := by
  have hx := exec_eq_unrolled hs hl m
  have hc := Integer.toInt_upTo l.first l.last
  refine ⟨hx, hc, fun ks m₀ m' h₀ hr => ?_, ?_, fun p q r hb => ?_⟩
  · have hk : m'.outerShape = m₀.outerShape := (l.rounds_keeps limit ks).of_ok hr
    rw [Machine.outerShape, Machine.outerShape] at hk
    rw [hk, Environment.outerShape, h₀, Environment.shape]
  · have hk := s.exec_keeps limit m
    cases hs with
    | mk => exact hk
  · have hst : stateAfter (s.exec limit) m = stateAfter (l.unrolled limit) m := by
      rw [stateAfter, stateAfter, hx]
    rw [hst, output_of_print hb, counters, hc, List.map_map]
    rfl

/-- The loop that prints the integers from three to five. -/
def threeToFive : CountedLoop where
  name := "i"
  first := 3
  last := 5
  body := ⟨[.print (.var "i" ⟨2, 12⟩) ⟨2, 3⟩], ⟨1, 60⟩⟩
  unwritten := by decide
  pos := ⟨1, 1⟩
  initialPos := ⟨1, 17⟩
  stepPos := ⟨1, 46⟩
  plusPos := ⟨1, 52⟩

/-- It goes round three times. -/
theorem exec_counted_threeToFive :
    ∃ s, threeToFive.Is s ∧ threeToFive.counters.length < 4 ∧
      s.exec 4 {} = threeToFive.unrolled 4 {} ∧ threeToFive.counters.map Int64.toInt = [3, 4, 5] ∧
      (stateAfter (s.exec 4) {}).output = "345" := by
  have hs := Is.mk (l := threeToFive) ⟨1, 28⟩ ⟨1, 31⟩ ⟨1, 36⟩ ⟨1, 33⟩ ⟨1, 50⟩ ⟨1, 54⟩ ⟨1, 46⟩
  have hl : threeToFive.counters.length < 4 := by decide
  obtain ⟨hx, hc, -, -, ho⟩ := exec_counted threeToFive hs hl {}
  exact ⟨_, hs, hl, hx, hc, ho _ _ _ rfl⟩

end CountedLoop

end Tudlo
