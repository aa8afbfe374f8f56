import Tudlo.Proofs.Machine.Induction
import Tudlo.Proofs.Machine.Receiving

/-!
# The statements that are executed

While a program runs, its statements are executed in an order that depends on
conditions and loops, some of them many times and some never. The *visits* of an
execution are the statements that it executes, in that order, each with the
machine that it is executed on (`Statement.visits`).

The visits account for all that the outside gets to see (`Visit.Account`): what
is printed is what the visited statements print, the lines that are taken from
the input are those that visited statements find, and the record has an entry
for each visit, and one for each visit that reads with success.

* `Statement.tracked_inductive`: the account of a statement, from those of its parts;
* `Statement.execAll_tracked`: the account of statements in sequence.
-/

namespace Tudlo

/-! ### Visits -/

/-- A statement that is executed, and the machine that it is executed on. -/
structure Visit where
  statement : Statement
  before : Machine

namespace Visit

/-- What is printed, if the statement prints and there is a value to print. -/
def printed? (v : Visit) : Option String :=
  match v.statement with
  | .print e _ =>
    match e.eval v.before.env with
    | .ok value _ => some value.display
    | .error _ _ => none
  | _ => none

/-- The line that is found, if the statement reads input and there is a line. -/
def line? (v : Visit) : Option String :=
  match v.statement with
  | .read _ _ => v.before.input.head?
  | _ => none

/-- Whether the statement reads input with success. Such a statement has no loops,
    so no limit is needed. -/
def receives (v : Visit) : Bool :=
  match v.statement with
  | .read names pos =>
    match (Statement.read names pos).exec 0 v.before with
    | .ok _ _ => true
    | .error _ _ => false
  | _ => false

section Leaves

variable {m m' : Machine} {e : Expr} {env : Environment} {names : List String} {pos : Position}

theorem printed?_of_ok {value : Value} (h : e.eval m.env = .ok value env) :
    printed? ⟨.print e pos, m⟩ = some value.display := by
  simp only [printed?, h]

theorem printed?_of_error {f : Fault} (h : e.eval m.env = .error f env) :
    printed? ⟨.print e pos, m⟩ = none := by
  simp only [printed?, h]

theorem receives_of_ok (h : (Statement.read names pos).exec 0 m = .ok () m') :
    receives ⟨.read names pos, m⟩ = true := by
  simp only [receives, h]

theorem receives_of_error {halt : Halt}
    (h : (Statement.read names pos).exec 0 m = .error halt m') :
    receives ⟨.read names pos, m⟩ = false := by
  simp only [receives, h]

end Leaves

end Visit

namespace Exec

/-- The visits of what follows an action, if the action succeeds. -/
def following {α : Type} (x : Exec α) (visits : α → Machine → List Visit) (m : Machine) :
    List Visit :=
  match x m with
  | .ok a m' => visits a m'
  | .error _ _ => []

section Following

variable {α : Type} {x : Exec α} {visits : α → Machine → List Visit} {m m' : Machine}

theorem following_of_ok {a : α} (h : x m = .ok a m') : x.following visits m = visits a m' := by
  rw [following, h]

theorem following_of_error {halt : Halt} (h : x m = .error halt m') :
    x.following visits m = [] := by
  rw [following, h]

end Following

/-- The visits of all rounds of a loop, when `visits` are those of one round. -/
def roundsVisits (condition : Exec Bool) (round : Exec Unit) (visits : Machine → List Visit) :
    (limit : Nat) → Machine → List Visit
  | 0 => fun _ => []
  | limit + 1 => condition.following fun holds =>
    if holds then fun m =>
      visits m ++ round.following (fun _ => roundsVisits condition round visits limit) m
    else fun _ => []

end Exec

mutual

/-- The visits of a statement, from itself on. -/
def Statement.visits (limit : Nat) : Statement → Machine → List Visit
  | .declare type names initial pos, m => [⟨.declare type names initial pos, m⟩]
  | .print value pos, m => [⟨.print value pos, m⟩]
  | .read names pos, m => [⟨.read names pos, m⟩]
  | .block body, m => ⟨.block body, m⟩ :: body.visits limit (m.emit (.executing body.pos))
  | .choose condition whenTrue whenFalse pos, m =>
    ⟨.choose condition whenTrue whenFalse pos, m⟩ ::
      (Exec.eval condition).following (fun v =>
        if v.truthy then whenTrue.visits limit else Block.visitsAny limit whenFalse)
        (m.emit (.executing pos))
  | .loop initial condition step body pos, m =>
    let inside := (m.emit (.executing pos)).push
    ⟨.loop initial condition step body pos, m⟩ ::
      (initial.visits limit inside ++ (initial.exec limit).following (fun _ =>
        Exec.roundsVisits (do return (← Exec.eval condition).truthy)
          (do body.exec limit; step.exec limit)
          (fun m => body.visits limit m ++
            (body.exec limit).following (fun _ => step.visits limit) m) limit) inside)
  | .compute expr pos, m => [⟨.compute expr pos, m⟩]
  termination_by structural s => s

/-- The visits of a block. -/
def Block.visits (limit : Nat) : Block → Machine → List Visit
  | ⟨statements, _⟩, m => Statement.visitsAll limit statements m.push
  termination_by structural b => b

/-- The visits of a block, if there is one. -/
def Block.visitsAny (limit : Nat) : Option Block → Machine → List Visit
  | none, _ => []
  | some body, m => body.visits limit m
  termination_by structural b => b

/-- The visits of statements that are executed one after the other. -/
def Statement.visitsAll (limit : Nat) : List Statement → Machine → List Visit
  | [], _ => []
  | s :: rest, m =>
    s.visits limit m ++ (s.exec limit).following (fun _ => Statement.visitsAll limit rest) m
  termination_by structural ss => ss

end

/-- The visits of a program. -/
def Program.visits (limit : Nat) (program : Program) (m : Machine) : List Visit :=
  Statement.visitsAll limit program m

/-! ### What visits account for -/

/-- The position of the statement, if the event is that one is executed. -/
def Event.executed? : Event → Option Position
  | .executing pos => some pos
  | _ => none

/-- Whether the event is that input was read. -/
def Event.isReceived : Event → Bool
  | .received _ => true
  | _ => false

/-- The visits `vs` account for what happened between `m` and `m'`. -/
structure Visit.Account (m : Machine) (vs : List Visit) (m' : Machine) : Prop where
  output : m'.output = m.output ++ String.join (vs.filterMap Visit.printed?)
  input : m.input = vs.filterMap Visit.line? ++ m'.input
  executed : m'.trace.toList.filterMap Event.executed? =
    m.trace.toList.filterMap Event.executed? ++ vs.map fun v => v.statement.pos
  received : m'.trace.toList.countP Event.isReceived =
    m.trace.toList.countP Event.isReceived + vs.countP Visit.receives

namespace Visit.Account

variable {m m' m'' : Machine} {vs ws : List Visit}

theorem refl (m : Machine) : Account m [] m where
  output := by simp
  input := rfl
  executed := by simp
  received := rfl

theorem trans (h : Account m vs m') (h' : Account m' ws m'') : Account m (vs ++ ws) m'' where
  output := by
    rw [h'.output, h.output, List.filterMap_append, String.join_append, String.append_assoc]
  input := by rw [h.input, h'.input, List.filterMap_append, List.append_assoc]
  executed := by rw [h'.executed, h.executed, List.map_append, List.append_assoc]
  received := by rw [h'.received, h.received, List.countP_append, Nat.add_assoc]

/-- What cannot be seen from outside needs no account. -/
theorem of_eq (ho : m'.output = m.output) (hi : m'.input = m.input) (ht : m'.trace = m.trace) :
    Account m [] m' where
  output := by simp [ho]
  input := by simp [hi]
  executed := by simp [ht]
  received := by simp [ht]

theorem push (m : Machine) : Account m [] m.push where
  output := by simp [Machine.push, Machine.emit]
  input := rfl
  executed := by simp [Machine.push, Machine.emit, Event.executed?]
  received := by simp [Machine.push, Machine.emit, Event.isReceived]

theorem pop (m : Machine) : Account m [] m.pop where
  output := by simp [Machine.pop, Machine.emit]
  input := rfl
  executed := by simp [Machine.pop, Machine.emit, Event.executed?]
  received := by simp [Machine.pop, Machine.emit, Event.isReceived]

/-- One visit, with the events that were recorded after the one for the visit. -/
theorem of_visit {s : Statement} (events : List Event)
    (ho : m'.output = m.output ++ (printed? ⟨s, m⟩).getD "")
    (hi : m.input = (line? ⟨s, m⟩).toList ++ m'.input)
    (ht : m'.trace.toList = m.trace.toList ++ .executing s.pos :: events)
    (he : events.filterMap Event.executed? = [])
    (hr : events.countP Event.isReceived = if receives ⟨s, m⟩ then 1 else 0) :
    Account m [⟨s, m⟩] m' where
  output := by
    rw [ho]
    cases h : printed? ⟨s, m⟩ <;> simp [h]
  input := by
    rw [hi]
    cases h : line? ⟨s, m⟩ <;> simp [h]
  executed := by simp [ht, he, Event.executed?]
  received := by
    rw [ht, List.countP_append, List.countP_cons_of_neg (by simp [Event.isReceived]), hr]
    simp [List.countP_cons]

/-- A visit where nothing is printed and no line is found leaves one event. -/
theorem of_silent {s : Statement} (hp : printed? ⟨s, m⟩ = none) (hl : line? ⟨s, m⟩ = none)
    (hr : receives ⟨s, m⟩ = false) : Account m [⟨s, m⟩] (m.emit (.executing s.pos)) := by
  refine of_visit [] ?_ ?_ ?_ rfl ?_
  · simp [hp, Machine.emit]
  · simp [hl, Machine.emit]
  · simp [Machine.emit]
  · simp [hr]

end Visit.Account

/-! ### Actions with their visits -/

/-- Whether the statement neither prints nor reads, apart from what is inside it. -/
def Statement.isSilent : Statement → Bool
  | .print _ _ => false
  | .read _ _ => false
  | _ => true

namespace Exec

variable {α β : Type}

/-- Whatever the machine is, the visits account for what the action does. -/
def Tracked (x : Exec α) (visits : Machine → List Visit) : Prop :=
  ∀ m, Visit.Account m (visits m) (stateAfter x m)

namespace Tracked

theorem of_keeps {x : Exec α} (h : Keeps Machine.outside x) : Tracked x fun _ => [] := by
  intro m
  have hm := h m
  simp only [Machine.outside, Prod.mk.injEq] at hm
  exact .of_eq hm.1 hm.2.1 hm.2.2

theorem bind {x : Exec α} {f : α → Exec β} {visits : Machine → List Visit}
    {visits' : α → Machine → List Visit} (hx : Tracked x visits)
    (hf : ∀ a, Tracked (f a) (visits' a)) :
    Tracked (x >>= f) fun m => visits m ++ x.following visits' m := by
  intro m
  dsimp only
  have hm := hx m
  cases h : x m with
  | ok a m' =>
    rw [stateAfter_of_ok h] at hm
    rw [stateAfter_bind_of_ok h, following_of_ok h]
    exact hm.trans (hf a m')
  | error halt m' =>
    rw [stateAfter_of_error h] at hm
    rw [stateAfter_bind_of_error h, following_of_error h, List.append_nil]
    exact hm

theorem ite {c : Prop} [Decidable c] {x y : Exec α} {visits visits' : Machine → List Visit}
    (hx : Tracked x visits) (hy : Tracked y visits') :
    Tracked (if c then x else y) (if c then visits else visits') := by
  split
  · exact hx
  · exact hy

/-- What follows the record of a statement that neither prints nor reads. -/
theorem visited {x : Exec α} {visits : Machine → List Visit} (hx : Tracked x visits)
    (s : Statement) (hs : s.isSilent = true) :
    Tracked (do record (.executing s.pos); x)
      fun m => ⟨s, m⟩ :: visits (m.emit (.executing s.pos)) := by
  intro m
  rw [stateAfter_bind_of_ok (record_apply (.executing s.pos) m)]
  refine Visit.Account.trans (Visit.Account.of_silent ?_ ?_ ?_) (hx (m.emit (.executing s.pos)))
  all_goals
    cases s with
    | print | read => cases hs
    | _ => rfl

theorem framed {x : Exec α} {visits : Machine → List Visit} (hx : Tracked x visits) :
    Tracked (framed x) fun m => visits m.push := by
  intro m
  rw [stateAfter_framed]
  simpa using ((Visit.Account.push m).trans (hx m.push)).trans (.pop _)

theorem rounds {condition : Exec Bool} {round : Exec Unit} {visits : Machine → List Visit}
    (hc : Keeps Machine.outside condition) (hr : Tracked round visits) (limit : Nat) :
    Tracked (Exec.rounds condition round limit) (roundsVisits condition round visits limit) := by
  induction limit with
  | zero => exact fun m => .refl m
  | succ limit ih =>
    refine bind (of_keeps hc) fun b => ?_
    cases b with
    | false => exact fun m => .refl m
    | true => exact bind hr fun _ => ih

end Tracked

end Exec

/-! ### Statements -/

/-- A statement that prints does so when there is a value to print. -/
theorem Statement.print_tracked (limit : Nat) (e : Expr) (pos : Position) :
    Exec.Tracked ((Statement.print e pos).exec limit) fun m => [⟨.print e pos, m⟩] := by
  intro m
  rw [Statement.exec, stateAfter_bind_of_ok (Exec.record_apply (.executing pos) m)]
  cases h : e.eval m.env with
  | ok value env =>
    rw [stateAfter_bind_of_ok (Exec.eval_of_ok (m := m.emit (.executing pos)) h)]
    refine .of_visit [] ?_ rfl ?_ rfl rfl
    · rw [Visit.printed?_of_ok h]
      rfl
    · exact Array.toList_push
  | error f env =>
    rw [stateAfter_bind_of_error (Exec.eval_of_error (m := m.emit (.executing pos)) h)]
    exact .trans (.of_silent (Visit.printed?_of_error h) rfl rfl) (.of_eq rfl rfl rfl)

/-- A statement that reads takes a line if there is one. -/
theorem Statement.read_tracked (limit : Nat) (names : List String) (pos : Position) :
    Exec.Tracked ((Statement.read names pos).exec limit) fun m => [⟨.read names pos, m⟩] := by
  intro m
  have hx : (Statement.read names pos).exec limit m =
      Exec.receive names pos (m.emit (.executing pos)) := rfl
  rcases Exec.receive_cases names pos (m.emit (.executing pos)) with
    ⟨hi, hr⟩ | ⟨line, rest, hi, ⟨f, hr⟩ | ⟨env, hr⟩⟩
  · have hl : Visit.line? ⟨.read names pos, m⟩ = none := congrArg List.head? hi
    rw [stateAfter_of_error (hx.trans hr)]
    exact .of_silent rfl hl (Visit.receives_of_error hr)
  · have hl : Visit.line? ⟨.read names pos, m⟩ = some line := congrArg List.head? hi
    rw [stateAfter_of_error (hx.trans hr)]
    refine .of_visit [] ?_ ?_ Array.toList_push rfl ?_
    · exact String.append_empty.symm
    · rw [hl]
      exact hi
    · rw [Visit.receives_of_error hr]
      rfl
  · have hl : Visit.line? ⟨.read names pos, m⟩ = some line := congrArg List.head? hi
    rw [stateAfter_of_ok (hx.trans hr)]
    refine .of_visit [.received names.length] ?_ ?_ ?_ rfl ?_
    · exact String.append_empty.symm
    · rw [hl]
      exact hi
    · simp [Machine.emit, Statement.pos]
    · rw [Visit.receives_of_ok hr]
      rfl

/-- The account of a statement is put together from those of its parts. -/
theorem Statement.tracked_inductive (limit : Nat) : Statement.Inductive
    (fun s => Exec.Tracked (s.exec limit) (s.visits limit))
    (fun b => Exec.Tracked (b.exec limit) (b.visits limit))
    (fun ss => Exec.Tracked (Statement.execAll limit ss) (Statement.visitsAll limit ss)) where
  declare type names initial pos := by
    refine (Exec.Tracked.of_keeps ?_).visited (.declare type names initial pos) rfl
    cases initial with
    | none => exact .bind (.pure _) fun _ => Exec.declare_keeps_outside _ _ _
    | some e => exact .bind (Exec.eval_keeps_outside e) fun _ => Exec.declare_keeps_outside _ _ _
  print value pos := Statement.print_tracked limit value pos
  read names pos := Statement.read_tracked limit names pos
  block {body} ih := ih.visited (.block body) rfl
  choose condition {whenTrue whenFalse} pos iht ihf := by
    have hf : Exec.Tracked (Block.execAny limit whenFalse) (Block.visitsAny limit whenFalse) := by
      cases whenFalse with
      | none => exact fun m => .refl m
      | some body => exact ihf body rfl
    have hc := Exec.Tracked.of_keeps (Exec.eval_keeps_outside condition)
    have hx := hc.bind fun v => .ite (c := v.truthy = true) iht hf
    exact hx.visited (.choose condition whenTrue whenFalse pos) rfl
  loop {initial} condition {step body} pos ihi ihs ihb := by
    have hc := (Exec.eval_keeps_outside condition).bind fun v => .pure v.truthy
    have hx := ihi.bind fun _ => Exec.Tracked.rounds hc (ihb.bind fun _ => ihs) limit
    exact hx.framed.visited (.loop initial condition step body pos) rfl
  compute expr pos := by
    have hx := (Exec.eval_keeps_outside expr).bind fun _ => .pure ()
    exact (Exec.Tracked.of_keeps hx).visited (.compute expr pos) rfl
  body _ ih := ih.framed
  nil m := .refl m
  cons ihs ihr := ihs.bind fun _ => ihr

/-- The visits of statements account for what they do. -/
theorem Statement.execAll_tracked (limit : Nat) (ss : List Statement) :
    Exec.Tracked (Statement.execAll limit ss) (Statement.visitsAll limit ss) :=
  Statement.all_of_inductive (Statement.tracked_inductive limit) ss

end Tudlo
