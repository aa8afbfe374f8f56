import Tudlo.Proofs.Machine.Actions

/-!
# Joining values

The operator `&` joins what is printed for its operands into one text. Two texts are
*reserved*: they are printed as something else than themselves, a line break and a
number sign. So when the joined text is reserved, as in `"" & [$]`, what is printed for
it is not what is printed for the operands one after the other. This is the only
exception, and it can strike at any of the joins of an expression.

Values are joined in some order, which parentheses decide (`Grouping`). Each join of a
grouping stands for the values under it (`Grouping.joined`). Whether one of them spells a
reserved text decides about the whole, because nothing that is done later makes up for
what a reserved text lost: what is printed for it weighs less than the text itself
(`Value.weight_display_of_reserved`), and a sum of weights with a smaller summand is
smaller.

* `Grouping.display_value_eq_iff`: when all is printed as it stands;
* `Statement.print_joined`: the same for a statement that prints.
-/

namespace Tudlo

namespace Value

/-! ### Reserved texts -/

/-- The text is printed as something else than itself. -/
def Reserved (s : String) : Prop :=
  s = lineBreak ∨ s = numberSign

instance (s : String) : Decidable (Reserved s) :=
  inferInstanceAs (Decidable (_ ∨ _))

theorem display_of_not_reserved {s : String} (h : ¬ Reserved s) : (text s).display = s := by
  rw [Reserved, not_or] at h
  rw [display, if_neg h.1, if_neg h.2]

/-- The code points of a text, added up. -/
def weight (s : String) : Nat :=
  s.toList.foldr (fun c n => c.toNat + n) 0

theorem weight_append (s t : String) : weight (s ++ t) = weight s + weight t := by
  rw [weight, String.toList_append, List.foldr_append, weight, weight]
  induction s.toList with
  | nil => exact (Nat.zero_add _).symm
  | cons c cs ih => rw [List.foldr_cons, List.foldr_cons, ih, Nat.add_assoc]

/-- A reserved text loses weight when it is printed. -/
theorem weight_display_of_reserved {s : String} (h : Reserved s) :
    weight (text s).display < weight s := by
  rcases h with rfl | rfl <;> decide

theorem weight_display_le (s : String) : weight (text s).display ≤ weight s := by
  by_cases h : Reserved s
  · exact Nat.le_of_lt (weight_display_of_reserved h)
  · exact Nat.le_of_eq (congrArg weight (display_of_not_reserved h))

/-- What is printed for the values, one after the other. -/
def displayAll (vs : List Value) : String :=
  String.join (vs.map display)

theorem displayAll_singleton (v : Value) : displayAll [v] = v.display := by
  rw [displayAll, List.map_singleton, String.join_cons, String.join_nil, String.append_empty]

theorem displayAll_append (vs ws : List Value) :
    displayAll (vs ++ ws) = displayAll vs ++ displayAll ws := by
  rw [displayAll, List.map_append, String.join_append, displayAll, displayAll]

end Value

/-! ### Groupings -/

/-- Values that are joined in the order that parentheses give. -/
inductive Grouping where
  /-- A value on its own. -/
  | single (v : Value)
  /-- Two groups that are joined. -/
  | join (left right : Grouping)

namespace Grouping

open Value (Reserved displayAll weight)

/-- The values, from left to right. -/
def values : Grouping → List Value
  | .single v => [v]
  | .join l r => l.values ++ r.values

/-- The values under each of the joins. -/
def joined : Grouping → List (List Value)
  | .single _ => []
  | .join l r => (l.values ++ r.values) :: (l.joined ++ r.joined)

/-- What the joins come to. -/
def value : Grouping → Value
  | .single v => v
  | .join l r => .text (l.value.display ++ r.value.display)

/-- None of the joins spells a reserved text. -/
def Plain (g : Grouping) : Prop :=
  ∀ vs ∈ g.joined, ¬ Reserved (displayAll vs)

theorem plain_join_iff {l r : Grouping} :
    (join l r).Plain ↔ ¬ Reserved (displayAll (l.values ++ r.values)) ∧ l.Plain ∧ r.Plain := by
  rw [Plain, joined, List.forall_mem_cons, List.forall_mem_append, Plain, Plain]

/-- What is printed for a grouping is what is printed for its values, or it weighs less,
    and the joins decide which. -/
theorem display_value (g : Grouping) :
    (g.Plain ∧ g.value.display = displayAll g.values) ∨
      (¬ g.Plain ∧ weight g.value.display < weight (displayAll g.values)) := by
  induction g with
  | single v => exact .inl ⟨by simp [Plain, joined], (Value.displayAll_singleton v).symm⟩
  | join l r ihl ihr =>
    have hle := Value.weight_display_le (l.value.display ++ r.value.display)
    rw [Value.weight_append] at hle
    rw [plain_join_iff, value, values, Value.displayAll_append, Value.weight_append]
    rcases ihl with ⟨hl, hdl⟩ | ⟨hl, hwl⟩
    · rcases ihr with ⟨hr, hdr⟩ | ⟨hr, hwr⟩
      · -- Both sides are as they should be, so it is up to this join.
        rw [hdl, hdr] at hle ⊢
        by_cases h : Reserved (displayAll l.values ++ displayAll r.values)
        · have hlt := Value.weight_display_of_reserved h
          rw [Value.weight_append] at hlt
          exact .inr ⟨fun hp => hp.1 h, hlt⟩
        · exact .inl ⟨⟨h, hl, hr⟩, Value.display_of_not_reserved h⟩
      · refine .inr ⟨fun hp => hr hp.2.2, Nat.lt_of_le_of_lt hle ?_⟩
        rw [hdl]
        exact Nat.add_lt_add_left hwr _
    · refine .inr ⟨fun hp => hl hp.2.1, Nat.lt_of_le_of_lt hle ?_⟩
      refine Nat.add_lt_add_of_lt_of_le hwl ?_
      rcases ihr with ⟨-, hdr⟩ | ⟨-, hwr⟩
      · exact Nat.le_of_eq (congrArg weight hdr)
      · exact Nat.le_of_lt hwr

/-- All values are printed as they are exactly when none of the joins spells a reserved
    text. -/
theorem display_value_eq_iff (g : Grouping) :
    g.value.display = displayAll g.values ↔ g.Plain := by
  rcases g.display_value with ⟨hp, hd⟩ | ⟨hp, hw⟩
  · exact ⟨fun _ => hp, fun _ => hd⟩
  · refine ⟨fun hd => ?_, fun h => absurd h hp⟩
    rw [hd] at hw
    exact absurd hw (Nat.lt_irrefl _)

end Grouping

/-! ### Expressions -/

/-- The expression joins values as in the grouping. The operands can be any expressions
    that have these values and change no variables. -/
inductive Expr.Groups (env : Environment) : Expr → Grouping → Prop where
  | single {e : Expr} {v : Value} (h : e.eval env = .ok v env) : Groups env e (.single v)
  | join {l r : Expr} {g g' : Grouping} (pos : Position) (hl : Groups env l g)
      (hr : Groups env r g') : Groups env (.binary .join l r pos) (.join g g')

theorem Expr.Groups.eval_eq {env : Environment} {e : Expr} {g : Grouping} (h : e.Groups env g) :
    e.eval env = .ok g.value env := by
  induction h with
  | single h => exact h
  | join pos _ _ ihl ihr =>
    rw [Expr.eval, bind_apply_of_ok ihl, bind_apply_of_ok ihr]
    rfl

/-! ### Printing -/

theorem Statement.exec_print_of_eval {m : Machine} {e : Expr} {v : Value}
    (h : e.eval m.env = .ok v m.env) (limit : Nat) (pos : Position) :
    (Statement.print e pos).exec limit m =
      .ok () { m.emit (.executing pos) with output := m.output ++ v.display } := by
  have he := Exec.eval_of_ok (m := m.emit (.executing pos)) h
  rw [Statement.exec, bind_apply_of_ok (Exec.record_apply (.executing pos) m)]
  exact bind_apply_of_ok he

/-- What is printed for two joined values is what is printed for the one and then for the
    other, unless this is a reserved text. And for values that are joined in any order
    this is so exactly when none of the joins spells a reserved text. -/
theorem Statement.print_joined :
    (∀ l r : Value, ∃ v, BinaryOp.join.logic l r = .ok v ∧
      (¬ Value.Reserved (l.display ++ r.display) → v.display = l.display ++ r.display) ∧
      (l.display ++ r.display = "$" → v.display = "\n") ∧
      (l.display ++ r.display = "[#]" → v.display = "#")) ∧
    ∀ (limit : Nat) (m : Machine) (e : Expr) (pos : Position) (g : Grouping),
      e.Groups m.env g →
      ∃ text, (Statement.print e pos).exec limit m =
          .ok () { m.emit (.executing pos) with output := m.output ++ text } ∧
        (text = String.join (g.values.map Value.display) ↔
          ∀ vs ∈ g.joined, ¬ Value.Reserved (String.join (vs.map Value.display))) := by
  refine ⟨fun l r => ⟨_, rfl, Value.display_of_not_reserved, ?_, ?_⟩, ?_⟩
  · intro h
    rw [h]
    rfl
  · intro h
    rw [h]
    rfl
  · intro limit m e pos g h
    exact ⟨_, Statement.exec_print_of_eval h.eval_eq limit pos, g.display_value_eq_iff⟩

/-- The expression `$ & ([$] & 1)`. -/
def priceLine : Expr :=
  .binary .join (.literal (.text "$") ⟨1, 1⟩)
    (.binary .join (.literal (.character '$') ⟨1, 6⟩) (.literal (.integer 1) ⟨1, 12⟩) ⟨1, 10⟩)
    ⟨1, 3⟩

/-- The values that it joins. -/
def priceGrouping : Grouping :=
  .join (.single (.text "$")) (.join (.single (.character '$')) (.single (.integer 1)))

/-- It prints a line break, a dollar sign and a one, as none of the joins is reserved. -/
theorem Statement.print_joined_priceLine :
    priceLine.Groups {} priceGrouping ∧
    (∀ vs ∈ priceGrouping.joined, ¬ Value.Reserved (String.join (vs.map Value.display))) ∧
    (Statement.print priceLine ⟨1, 1⟩).exec 0 {} =
      .ok () { ({} : Machine).emit (.executing ⟨1, 1⟩) with output := "\n$1" } := by
  have h : priceLine.Groups {} priceGrouping :=
    .join _ (.single rfl) (.join _ (.single rfl) (.single rfl))
  have hp : ∀ vs ∈ priceGrouping.joined,
      ¬ Value.Reserved (String.join (vs.map Value.display)) := by decide
  obtain ⟨text, hx, ht⟩ := Statement.print_joined.2 0 {} priceLine ⟨1, 1⟩ priceGrouping h
  obtain rfl := ht.2 hp
  exact ⟨h, hp, hx⟩

/-- An empty text and a dollar sign are joined to the text that is printed as a line
    break, and not as a dollar sign. -/
theorem Value.display_join_dollar : ∃ v, BinaryOp.join.logic (.text "") (.character '$') = .ok v ∧
    v.display = "\n" ∧ (Value.text "").display ++ (Value.character '$').display = "$" ∧
    v.display ≠ (Value.text "").display ++ (Value.character '$').display :=
  ⟨_, rfl, rfl, rfl, by decide⟩

end Tudlo
