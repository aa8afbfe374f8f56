import Tudlo.Proofs.Environment.Slots
import Tudlo.Proofs.Machine.Actions

/-!
# Receiving a line of input

A line of input is received by all of the names or by none of them. There are two passes
over the fields. The first one reads each field for the variable where its name stands,
and gives up at the first name that *refuses* its field, because it has no variable or one
of a type that the field is not well formed for (`Environment.Refuses`). Up to here nothing
has changed. The second pass enters the values, and it cannot fail any more: each of the
names was just found, and no value that is entered takes a name away.

* `Exec.readFields_of_refuses`, `Exec.readFields_of_reads`: the first pass;
* `Exec.writeFields_of_standsAt`: the second pass;
* `Exec.receive_exact`: both of them, with the line that is taken.
-/

namespace Tudlo

/-! ### Fields and names -/

namespace Environment

/-- The name cannot receive the field, for this cause. -/
inductive Refuses (env : Environment) : String × List Char → FaultCause → Prop where
  /-- None of the frames has a variable of this name. -/
  | undeclared {name : String} {field : List Char} (h : ∀ k, env.slot k name = none) :
      Refuses env (name, field) (.unknownVariable name)
  /-- The field is not well formed for the variable where the name stands. -/
  | malformed {name : String} {field : List Char} {k : Nat} {v : Variable}
      (h : env.StandsAt name k v) (hr : v.type.read? field = none) :
      Refuses env (name, field) (.fieldMalformed name v.type (String.ofList field))

/-- The name receives the field as this value, which is of the kind that its variable was
    declared for. -/
structure Reads (env : Environment) (p : String × List Char) (q : String × Value) : Prop where
  name_eq : q.1 = p.1
  read : ∃ k v, env.StandsAt p.1 k v ∧ v.type.read? p.2 = some q.2 ∧ q.2.kind = v.type.kind

/-- A name that does not refuse its field receives it. -/
theorem reads_of_not_refuses {env : Environment} {p : String × List Char}
    (h : ∀ cause, ¬ env.Refuses p cause) : ∃ value, env.Reads p (p.1, value) := by
  obtain ⟨name, field⟩ := p
  cases hf : env.find? name with
  | none => exact absurd (.undeclared (find?_eq_none_iff.1 hf)) (h _)
  | some v =>
    obtain ⟨k, hv⟩ := find?_eq_some_iff.1 hf
    cases hr : v.type.read? field with
    | none => exact absurd (.malformed hv hr) (h _)
    | some value => exact ⟨value, rfl, k, v, hv, hr, ScalarType.kind_of_read? hr⟩

/-- A name that receives its field does not refuse it. -/
theorem Reads.not_refuses {env : Environment} {p : String × List Char} {q : String × Value}
    (h : env.Reads p q) (cause : FaultCause) : ¬ env.Refuses p cause := by
  obtain ⟨-, k, v, hv, hr, -⟩ := h
  rintro (hn | ⟨hw, hr'⟩)
  · exact absurd ((hn k).symm.trans hv.1) (by simp)
  · obtain ⟨-, rfl⟩ := hv.unique hw
    exact absurd (hr'.symm.trans hr) (by simp)

/-- Names that receive values stand somewhere. -/
theorem standsAt_of_reads {env : Environment} {pairs : List (String × List Char)}
    {values : List (String × Value)} (h : List.Forall₂ env.Reads pairs values) :
    ∀ q ∈ values, ∃ k v, env.StandsAt q.1 k v := by
  induction h with
  | nil => simp
  | cons hp _ ih =>
    refine List.forall_mem_cons.2 ⟨?_, ih⟩
    obtain ⟨hn, k, v, hv, -⟩ := hp
    rw [hn]
    exact ⟨k, v, hv⟩

/-- Either no name refuses its field, or there is a first one. -/
theorem refuses_first (env : Environment) (pairs : List (String × List Char)) :
    (∀ p ∈ pairs, ∀ cause, ¬ env.Refuses p cause) ∨
      ∃ before p after cause, pairs = before ++ p :: after ∧
        (∀ q ∈ before, ∀ cause, ¬ env.Refuses q cause) ∧ env.Refuses p cause := by
  induction pairs with
  | nil => exact .inl (by simp)
  | cons p pairs ih =>
    by_cases hp : ∃ cause, env.Refuses p cause
    · obtain ⟨cause, hp⟩ := hp
      exact .inr ⟨[], p, pairs, cause, rfl, by simp, hp⟩
    · rw [not_exists] at hp
      rcases ih with h | ⟨before, q, after, cause, rfl, hb, hq⟩
      · exact .inl (List.forall_mem_cons.2 ⟨hp, h⟩)
      · exact .inr ⟨p :: before, q, after, cause, rfl, List.forall_mem_cons.2 ⟨hp, hb⟩, hq⟩

end Environment

namespace Exec

variable {env : Environment} {pos : Position} {p : String × List Char}

/-! ### The first pass -/

theorem readFields_cons_of_refuses {cause : FaultCause} (h : env.Refuses p cause)
    (rest : List (String × List Char)) :
    readFields pos (p :: rest) env = .error ⟨cause, pos⟩ env := by
  cases h with
  | @undeclared name field h =>
    have hv : Environment.resolve name pos env = _ :=
      Environment.resolve_of_none (Environment.find?_eq_none_iff.2 h)
    rw [readFields, bind_apply_of_error hv]
  | @malformed name field k v h hr =>
    have hv : Environment.resolve name pos env = _ :=
      Environment.resolve_of_find? (Environment.find?_eq_some_iff.2 ⟨k, h⟩)
    rw [readFields, bind_apply_of_ok hv]
    simp only [hr]
    rfl

theorem readFields_cons_of_reads {value : Value} (h : env.Reads p (p.1, value))
    (rest : List (String × List Char)) :
    readFields pos (p :: rest) env =
      (do return (p.1, value) :: (← readFields pos rest) : EStateM Fault Environment _) env := by
  obtain ⟨-, k, v, hs, hr, -⟩ := h
  have hv : Environment.resolve p.1 pos env = _ :=
    Environment.resolve_of_find? (Environment.find?_eq_some_iff.2 ⟨k, hs⟩)
  rw [readFields, bind_apply_of_ok hv]
  simp only [hr]

/-- The first name that refuses its field decides. -/
theorem readFields_of_refuses {before after : List (String × List Char)} {cause : FaultCause}
    (hb : ∀ q ∈ before, ∀ cause, ¬ env.Refuses q cause) (h : env.Refuses p cause) :
    readFields pos (before ++ p :: after) env = .error ⟨cause, pos⟩ env := by
  induction before with
  | nil => exact readFields_cons_of_refuses h after
  | cons q before ih =>
    obtain ⟨hq, hb⟩ := List.forall_mem_cons.1 hb
    obtain ⟨value, hq⟩ := Environment.reads_of_not_refuses hq
    rw [List.cons_append, readFields_cons_of_reads hq]
    exact bind_apply_of_error (ih hb)

/-- When no name refuses its field, there is a value for each of them. -/
theorem readFields_of_reads {pairs : List (String × List Char)}
    (h : ∀ q ∈ pairs, ∀ cause, ¬ env.Refuses q cause) :
    ∃ values, readFields pos pairs env = .ok values env ∧
      List.Forall₂ env.Reads pairs values := by
  induction pairs with
  | nil => exact ⟨[], rfl, .nil⟩
  | cons q pairs ih =>
    obtain ⟨hq, h⟩ := List.forall_mem_cons.1 h
    obtain ⟨value, hq⟩ := Environment.reads_of_not_refuses hq
    obtain ⟨values, hv, hr⟩ := ih h
    refine ⟨(q.1, value) :: values, ?_, .cons hq hr⟩
    rw [readFields_cons_of_reads hq]
    exact bind_apply_of_ok hv

/-! ### The second pass -/

/-- Values for names that stand somewhere can be entered. -/
theorem writeFields_of_standsAt {values : List (String × Value)}
    (h : ∀ q ∈ values, ∃ k v, env.StandsAt q.1 k v) :
    ∃ env', writeFields pos values env = .ok () env' ∧ env.Entered values env' := by
  induction values generalizing env with
  | nil => exact ⟨env, rfl, env.entered_nil⟩
  | cons q values ih =>
    obtain ⟨name, value⟩ := q
    obtain ⟨⟨k, v, hv⟩, h⟩ := List.forall_mem_cons.1 h
    obtain ⟨env₁, ha, -⟩ := hv.assign? value
    -- The other names still stand where they stood.
    have h₁ : ∀ q ∈ values, ∃ k v, env₁.StandsAt q.1 k v := by
      intro q hq
      obtain ⟨j, w, hw⟩ := h q hq
      obtain ⟨w', hw', -⟩ := hw.of_shape (Environment.shape_of_assign? ha)
      exact ⟨j, w', hw'⟩
    obtain ⟨env', hx, he⟩ := ih h₁
    refine ⟨env', ?_, hv.entered ha he⟩
    rw [writeFields, bind_apply_of_ok (Environment.write_of_assign? ha)]
    exact hx

/-! ### Both passes -/

variable {m : Machine} {names : List String} {line : String} {rest : List String}

theorem nextLine_of_cons (h : m.input = line :: rest) (pos : Position) :
    nextLine pos m = .ok line { m with input := rest } := by
  obtain ⟨env, output, input, trace⟩ := m
  subst h
  rfl

theorem receive_of_nil (h : m.input = []) :
    receive names pos m = .error (.fault ⟨.inputMissing, pos⟩) m := by
  obtain ⟨env, output, input, trace⟩ := m
  subst h
  rfl

theorem receive_of_count (hi : m.input = line :: rest)
    (hc : (inputFields line).length ≠ names.length) :
    receive names pos m =
      .error (.fault ⟨.fieldCount names.length (inputFields line).length, pos⟩)
        { m with input := rest } := by
  rw [receive, bind_apply_of_ok (nextLine_of_cons hi pos), if_neg hc]
  rfl

theorem receive_of_refuses {before after : List (String × List Char)} {cause : FaultCause}
    (hi : m.input = line :: rest) (hc : (inputFields line).length = names.length)
    (hz : names.zip (inputFields line) = before ++ p :: after)
    (hb : ∀ q ∈ before, ∀ cause, ¬ m.env.Refuses q cause) (h : m.env.Refuses p cause) :
    receive names pos m = .error (.fault ⟨cause, pos⟩) { m with input := rest } := by
  rw [receive, bind_apply_of_ok (nextLine_of_cons hi pos), if_pos hc, hz]
  refine bind_apply_of_error (onVariables_of_error (m := { m with input := rest }) ?_)
  exact bind_apply_of_error (readFields_of_refuses hb h)

theorem receive_of_reads (hi : m.input = line :: rest)
    (hc : (inputFields line).length = names.length)
    (h : ∀ p ∈ names.zip (inputFields line), ∀ cause, ¬ m.env.Refuses p cause) :
    ∃ values env, List.Forall₂ m.env.Reads (names.zip (inputFields line)) values ∧
      m.env.Entered values env ∧
      receive names pos m =
        .ok () (({ m with env, input := rest } : Machine).emit (.received names.length)) := by
  obtain ⟨values, hx, hr⟩ := readFields_of_reads h
  obtain ⟨env, hw, he⟩ := writeFields_of_standsAt (Environment.standsAt_of_reads hr)
  refine ⟨values, env, hr, he, ?_⟩
  rw [receive, bind_apply_of_ok (nextLine_of_cons hi pos), if_pos hc]
  have hv : (readFields pos (names.zip (inputFields line)) >>= writeFields pos) m.env =
      .ok () env := (bind_apply_of_ok hx).trans hw
  exact bind_apply_of_ok (onVariables_of_ok (m := { m with input := rest }) hv)

/-- Reading into names either finds no line and does nothing, or it takes the next line.
    Then it does nothing else, or it changes the variables and leaves a record. -/
theorem receive_cases (names : List String) (pos : Position) (m : Machine) :
    (m.input = [] ∧ receive names pos m = .error (.fault ⟨.inputMissing, pos⟩) m) ∨
    ∃ line rest, m.input = line :: rest ∧
      ((∃ f, receive names pos m = .error (.fault f) { m with input := rest }) ∨
      ∃ env, receive names pos m = .ok () (({ m with env, input := rest } : Machine).emit
        (.received names.length))) := by
  cases hi : m.input with
  | nil => exact .inl ⟨rfl, receive_of_nil hi⟩
  | cons line rest =>
    refine .inr ⟨line, rest, rfl, ?_⟩
    by_cases hc : (inputFields line).length = names.length
    · rcases m.env.refuses_first (names.zip (inputFields line)) with
        h | ⟨before, p, after, cause, hz, hb, h⟩
      · obtain ⟨values, env, -, -, hx⟩ := receive_of_reads hi hc h
        exact .inr ⟨env, hx⟩
      · exact .inl ⟨_, receive_of_refuses hi hc hz hb h⟩
    · exact .inl ⟨_, receive_of_count hi hc⟩

/-- A fault leaves the variables as they were. -/
theorem env_of_receive_error {halt : Halt} {m' : Machine}
    (h : receive names pos m = .error halt m') : m'.env = m.env := by
  rcases receive_cases names pos m with ⟨-, hx⟩ | ⟨line, rest, -, ⟨f, hx⟩ | ⟨env, hx⟩⟩
  · rw [hx] at h
    cases h
    rfl
  · rw [hx] at h
    cases h
    rfl
  · rw [hx] at h
    cases h

/-- One line is taken if there is one, and nothing is printed. -/
theorem stateAfter_receive (names : List String) (pos : Position) (m : Machine) :
    (stateAfter (receive names pos) m).input = m.input.tail ∧
      (stateAfter (receive names pos) m).output = m.output := by
  rcases receive_cases names pos m with ⟨hi, hx⟩ | ⟨line, rest, hi, ⟨f, hx⟩ | ⟨env, hx⟩⟩
  · rw [stateAfter_of_error hx, hi]
    exact ⟨rfl, rfl⟩
  · rw [stateAfter_of_error hx, hi]
    exact ⟨rfl, rfl⟩
  · rw [stateAfter_of_ok hx, hi]
    exact ⟨rfl, rfl⟩

/-- A line is received by all of the names or by none.

    Whatever the end is, one line is taken if there is one, nothing is printed, and if it
    is a fault, the variables are exactly as they were. There is a fault when there is no
    line, when there are not as many fields as names, and otherwise when a name refuses its
    field; then the first such name decides. When no name does, the values are entered. -/
theorem receive_exact (names : List String) (pos : Position) (m : Machine) :
    ((stateAfter (receive names pos) m).input = m.input.tail ∧
      (stateAfter (receive names pos) m).output = m.output) ∧
    (∀ halt m', receive names pos m = .error halt m' → m'.env = m.env) ∧
    (m.input = [] → receive names pos m = .error (.fault ⟨.inputMissing, pos⟩) m) ∧
    ∀ line rest, m.input = line :: rest →
      ((inputFields line).length ≠ names.length →
        receive names pos m =
          .error (.fault ⟨.fieldCount names.length (inputFields line).length, pos⟩)
            { m with input := rest }) ∧
      ((inputFields line).length = names.length →
        (∀ before p after cause, names.zip (inputFields line) = before ++ p :: after →
          (∀ q ∈ before, ∀ cause, ¬ m.env.Refuses q cause) → m.env.Refuses p cause →
          receive names pos m = .error (.fault ⟨cause, pos⟩) { m with input := rest }) ∧
        ((∀ p ∈ names.zip (inputFields line), ∀ cause, ¬ m.env.Refuses p cause) →
          ∃ values env, List.Forall₂ m.env.Reads (names.zip (inputFields line)) values ∧
            m.env.Entered values env ∧
            receive names pos m =
              .ok () (({ m with env, input := rest } : Machine).emit
                (.received names.length)))) := by
  refine ⟨stateAfter_receive names pos m, fun _ _ => env_of_receive_error, receive_of_nil, ?_⟩
  intro line rest hi
  refine ⟨receive_of_count hi, fun hc => ⟨?_, receive_of_reads hi hc⟩⟩
  intro before p after cause hz hb h
  exact receive_of_refuses hi hc hz hb h

/-- A machine with two variables `n`, of which the inner one hides the outer one. -/
def hidden : Machine :=
  { env := ⟨⟨[("n", ⟨.integer, .integer 0⟩)]⟩,
      [⟨[("c", ⟨.character, .character 'a'⟩), ("n", ⟨.decimal, .text "old"⟩)]⟩]⟩
    input := ["7, x ,8", "more"] }

/-- A line for the inner `n`, for `c`, and for `n` once more. -/
theorem receive_exact_hidden :
    (inputFields "7, x ,8").length = ["n", "c", "n"].length ∧
    (∀ p ∈ ["n", "c", "n"].zip (inputFields "7, x ,8"), ∀ cause,
      ¬ hidden.env.Refuses p cause) ∧
    ∃ values env, List.Forall₂ hidden.env.Reads (["n", "c", "n"].zip (inputFields "7, x ,8")) values ∧
      hidden.env.Entered values env ∧
      receive ["n", "c", "n"] ⟨1, 1⟩ hidden =
        .ok () (({ hidden with env, input := ["more"] } : Machine).emit (.received 3)) := by
  have hz : ["n", "c", "n"].zip (inputFields "7, x ,8") =
      [("n", ['7']), ("c", ['x']), ("n", ['8'])] := by decide +kernel
  have hn : hidden.env.StandsAt "n" 0 ⟨.integer, .integer 0⟩ := ⟨rfl, by simp⟩
  have hc : hidden.env.StandsAt "c" 1 ⟨.character, .character 'a'⟩ := by
    refine ⟨rfl, fun j hj => ?_⟩
    obtain rfl : j = 0 := by omega
    rfl
  have h : ∀ p ∈ ["n", "c", "n"].zip (inputFields "7, x ,8"), ∀ cause,
      ¬ hidden.env.Refuses p cause := by
    rw [hz]
    have h7 : hidden.env.Reads ("n", ['7']) ("n", .integer 7) :=
      ⟨rfl, 0, _, hn, by decide +kernel, rfl⟩
    have hx : hidden.env.Reads ("c", ['x']) ("c", .character 'x') := ⟨rfl, 1, _, hc, rfl, rfl⟩
    have h8 : hidden.env.Reads ("n", ['8']) ("n", .integer 8) :=
      ⟨rfl, 0, _, hn, by decide +kernel, rfl⟩
    simp only [List.forall_mem_cons]
    exact ⟨h7.not_refuses, hx.not_refuses, h8.not_refuses, by simp⟩
  have hl : (inputFields "7, x ,8").length = ["n", "c", "n"].length := by decide +kernel
  have hall := receive_exact ["n", "c", "n"] ⟨1, 1⟩ hidden
  exact ⟨hl, h, ((hall.2.2.2 _ _ rfl).2 hl).2 h⟩

end Exec

end Tudlo
