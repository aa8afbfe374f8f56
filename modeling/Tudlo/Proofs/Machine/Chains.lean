import Tudlo.Proofs.Grammar.Chains
import Tudlo.Proofs.Machine.Simulation

/-!
# The first condition that holds

A chain of conditions means that the block of the first one that holds is executed, and no
other (`Exec.firstMatch`). But a chain is nested statements, so that a condition far
down is computed inside the frames of all the blocks around it, and its block is executed
there. Nothing is ever declared in these frames, which are there for the nested statement
only. So the environment is the one in which the chain began, with some empty frames on top
(`Frame.Padded`), and execution cannot tell.

* `Frame.Padded.simulation`: empty frames make no difference;
* `Branch.nest_lockstep`: nested statements mean the first condition that holds;
* `Parse.chain_firstMatch`: so does a chain as it is written.
-/

namespace Tudlo

/-! ### Empty frames -/

namespace Frame

variable {j n : Nat} {f g : Frame} {fs gs : List Frame}

/-- The first frames are the second ones with `j` empty frames put in, below the first `n`. -/
inductive Padded : (j n : Nat) → List Frame → List Frame → Prop
  | none {fs : List Frame} (h : fs ≠ []) : Padded 0 0 fs fs
  | empty {j : Nat} {fs gs : List Frame} (h : Padded j 0 fs gs) : Padded (j + 1) 0 (⟨[]⟩ :: fs) gs
  | under {j n : Nat} {fs gs : List Frame} (f : Frame) (h : Padded j n fs gs) :
      Padded j (n + 1) (f :: fs) (f :: gs)

namespace Padded

theorem ne_nil (h : Padded j n fs gs) : fs ≠ [] ∧ gs ≠ [] := by
  induction h with
  | none h => exact ⟨h, h⟩
  | empty _ ih => exact ⟨List.cons_ne_nil _ _, ih.2⟩
  | under f _ _ => exact ⟨List.cons_ne_nil _ _, List.cons_ne_nil _ _⟩

/-- No name is found in an empty frame. -/
theorem findSome?_eq (h : Padded j n fs gs) (name : String) :
    (fs.findSome? fun f => f.find? name) = gs.findSome? fun g => g.find? name := by
  induction h with
  | none _ => rfl
  | empty _ ih => exact ih
  | under f _ ih => rw [List.findSome?_cons, List.findSome?_cons, ih]

/-- An assignment passes by the empty frames. -/
theorem assignIn? (h : Padded j n fs gs) (name : String) (value : Value) :
    Option.Rel (Padded j n) (Environment.assignIn? name value fs)
      (Environment.assignIn? name value gs) := by
  induction h with
  | @none fs h =>
    cases ha : Environment.assignIn? name value fs with
    | none => exact .none
    | some gs =>
      refine .some (.none fun hg => h ?_)
      have hl := (Environment.forall₂_within_of_assignIn? ha).length_eq
      rw [hg] at hl
      exact List.length_eq_zero_iff.1 hl
  | @empty j fs gs _ ih =>
    rw [Environment.assignIn?]
    generalize Environment.assignIn? name value fs = fs',
      Environment.assignIn? name value gs = gs' at ih ⊢
    cases ih with
    | none => exact .none
    | some h => exact .some (.empty h)
  | @under j n fs gs f h ih =>
    rw [Environment.assignIn?, Environment.assignIn?]
    cases f.assign? name value with
    | some g => exact .some (.under g h)
    | none =>
      generalize Environment.assignIn? name value fs = fs',
        Environment.assignIn? name value gs = gs' at ih ⊢
      cases ih with
      | none => exact .none
      | some h => exact .some (.under f h)

/-- Execution cannot tell whether there are more empty frames. -/
theorem simulation (j : Nat) : Environment.Simulation (fun _ => True) (Padded j) where
  findSome?_eq := findSome?_eq
  assignIn? h name _ value := h.assignIn? name value
  insert h name _ v := by
    cases h with
    | under f h => exact .under _ h
  push := .under _
  pop h := by
    cases h with
    | under f h => exact ⟨h, h.ne_nil⟩

end Padded

end Frame

/-! ### Chains -/

/-- The block of the first branch whose condition holds. The conditions are computed one after
    the other, and no more of them than needed. -/
def Exec.firstMatch (otherwise : Option Block) : List Branch → Exec (Option Block)
  | [] => return otherwise
  | b :: bs => do
    if (← Exec.eval b.condition).truthy then return some b.body
    else Exec.firstMatch otherwise bs

section Chains

variable {α : Type} {j : Nat} {m n : Machine}

/-- The first machine has `j` more frames than the second one, which are the innermost ones and
    empty. Otherwise the machines are the same, but for the record of what happened. -/
abbrev Machine.Padded (j : Nat) : Machine → Machine → Prop :=
  Machine.Like (Frame.Padded j 0)

theorem Block.execAny_padded (limit : Nat) (b : Option Block) :
    Lockstep (Machine.Padded j) (Block.execAny limit b) (Block.execAny limit b) := by
  cases b with
  | none => exact .pure ()
  | some b => exact b.exec_of_simulation (Frame.Padded.simulation j) (fun _ _ => trivial) limit 0

theorem Machine.Padded.pop (h : m.Padded (j + 1) n) : m.pop.Padded j n := by
  obtain ⟨⟨f, fs⟩, output, input, trace⟩ := m
  obtain ⟨he, ho, hi⟩ := h
  have hp : Frame.Padded j 0 fs n.env.frames := by
    cases (id he : Frame.Padded (j + 1) 0 (f :: fs) n.env.frames) with
    | empty hp => exact hp
  refine ⟨?_, ho, hi⟩
  show Frame.Padded j 0 (Environment.pop ⟨f, fs⟩).frames n.env.frames
  rw [Environment.frames_pop hp.ne_nil.1]
  exact hp

/-- Without empty frames there is no difference. -/
theorem Machine.Padded.env_eq (h : m.Padded 0 n) : m.env = n.env := by
  obtain ⟨⟨f, fs⟩, output, input, trace⟩ := m
  obtain ⟨⟨g, gs⟩, output', input', trace'⟩ := n
  cases (id h.env : Frame.Padded 0 0 (f :: fs) (g :: gs)) with
  | none _ => rfl

/-- A frame of its own is one more empty frame, as long as it lasts. -/
theorem Exec.framed_padded {a b : Exec α} (h : Lockstep (Machine.Padded (j + 1)) a b) :
    Lockstep (Machine.Padded j) (framed a) b := by
  intro m n hmn
  have ha := @h m.push n ⟨.empty hmn.env, hmn.output, hmn.input⟩
  rw [framed]
  generalize a m.push = r, b n = r' at ha ⊢
  cases ha with
  | ok hr => exact .ok ⟨hr.1, Machine.Padded.pop hr.2⟩
  | error hr => exact .error ⟨hr.1, Machine.Padded.pop hr.2⟩

/-- A statement with a condition picks one of two things to do. It also records that it is
    executed, which does not matter here. -/
theorem Statement.choose_lockstep {limit : Nat} {condition : Expr} {body : Block}
    {whenFalse : Option Block} {pos : Position} {others : Exec (Option Block)}
    (h : Lockstep (Machine.Padded j) (Block.execAny limit whenFalse)
      (others >>= Block.execAny limit)) :
    Lockstep (Machine.Padded j)
      ((Statement.choose condition body whenFalse pos).exec limit)
      ((do if (← Exec.eval condition).truthy then return some body else others) >>=
        Block.execAny limit) := by
  intro m n hmn
  rw [bind_assoc, Statement.exec, bind_apply_of_ok (Exec.record_apply _ m)]
  have he : Lockstep (Machine.Padded j) (Exec.eval condition) (Exec.eval condition) :=
    Exec.eval_of_simulation (Frame.Padded.simulation j) (fun _ _ => trivial) 0
  refine he.bind (fun v => ?_) ⟨hmn.env, hmn.output, hmn.input⟩
  split
  · rw [pure_bind]
    exact Block.execAny_padded limit (some body)
  · exact h

/-- Nested statements do what the first branch that matches does, also when there are empty
    frames around them. -/
theorem Branch.nest_lockstep (limit : Nat) (otherwise : Option Block) (b : Branch)
    (bs : List Branch) :
    Lockstep (Machine.Padded j) ((b.nest otherwise bs).exec limit)
      (Exec.firstMatch otherwise (b :: bs) >>= Block.execAny limit) := by
  induction bs generalizing b j with
  | nil =>
    refine Statement.choose_lockstep ?_
    rw [Exec.firstMatch, pure_bind]
    exact Block.execAny_padded limit otherwise
  | cons c cs ih =>
    refine Statement.choose_lockstep ?_
    rw [Block.execAny, Block.exec, Statement.execAll_singleton]
    exact Exec.framed_padded (ih c)

end Chains

/-- A chain means the first condition that holds.

    It is read as nested statements, and these do what the chain says: the conditions are
    computed one after the other until one holds, then the block of that one is executed, or
    the last block when none of them holds. Nothing else is done, so that a fault in a
    condition is the end. The result, the output, the input that is left and all variables
    are the same. -/
theorem Parse.chain_firstMatch {k : Token} {ts rest : List Token} {b : Branch} {bs : List Branch}
    {otherwise : Option Block} (hk : k.kind = .keyword .kung)
    (h : ChainDerives k ts b bs otherwise) (hr : ChainEnds otherwise rest) :
    Parse.statement (k :: (ts ++ rest)) = .ok (b.nest otherwise bs) rest ∧
    ∀ limit m, SameEnd (fun m' n' : Machine => m'.env = n'.env ∧ m'.output = n'.output ∧
        m'.input = n'.input) ((b.nest otherwise bs).exec limit m)
      ((Exec.firstMatch otherwise (b :: bs) >>= Block.execAny limit) m) := by
  refine ⟨Parse.statement_of_chain hk h hr, fun limit m => ?_⟩
  have hm : m.Padded 0 m := ⟨.none (List.cons_ne_nil _ _), rfl, rfl⟩
  have hl := Branch.nest_lockstep limit otherwise b bs hm
  refine hl.mono ?_ ?_
  · rintro _ m' _ n' ⟨rfl, hl⟩
    exact ⟨rfl, Machine.Padded.env_eq hl, hl.output, hl.input⟩
  · rintro _ m' _ n' ⟨rfl, hl⟩
    exact ⟨rfl, Machine.Padded.env_eq hl, hl.output, hl.input⟩

/-- The tokens of a chain of two conditions, of which the second one assigns. -/
def chainTokens : List Token := inColumns
  [.keyword .kung, .name "i", .symbol .greater, .literal (.integer 1), .symbol .openBrace,
   .symbol .closeBrace, .keyword .kungDili, .name "i", .symbol .assign, .literal (.integer 2),
   .symbol .openBrace, .keyword .ipakita, .symbol .colon, .name "i", .symbol .closeBrace, .ending]

/-- The chain is read to the end, and means the first of the two conditions that holds. -/
theorem Parse.chain_firstMatch_assigning :
    ∃ b c, ChainDerives ⟨.keyword .kung, "", ⟨1, 1⟩⟩ ((chainTokens.drop 1).take 14) b [c] none ∧
      ChainEnds none (chainTokens.drop 15) ∧
      Parse.statement chainTokens = .ok (b.nest none [c]) (chainTokens.drop 15) ∧
      ∀ limit m, SameEnd (fun m' n' : Machine => m'.env = n'.env ∧ m'.output = n'.output ∧
          m'.input = n'.input) ((b.nest none [c]).exec limit m)
        ((Exec.firstMatch none [b, c] >>= Block.execAny limit) m) := by
  have hb : BranchDerives ⟨.keyword .kung, "", ⟨1, 1⟩⟩ ((chainTokens.drop 1).take 3 ++
      (chainTokens.drop 4).take 2) _ := .mk rfl rfl
  have hc : BranchDerives ⟨.keyword .kungDili, "", ⟨1, 7⟩⟩ ((chainTokens.drop 7).take 3 ++
      (chainTokens.drop 10).take 5) _ := .mk rfl rfl
  have h := ChainDerives.more hb rfl (.last hc)
  have hr : ChainEnds none (chainTokens.drop 15) := fun _ =>
    ⟨⟨.ending, "", ⟨1, 16⟩⟩, [], rfl, by decide, by decide⟩
  have hm := Parse.chain_firstMatch rfl h hr
  exact ⟨_, _, h, hr, hm⟩

end Tudlo
