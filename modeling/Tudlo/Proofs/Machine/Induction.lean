import Tudlo.Machine.Execution
import Tudlo.Proofs.Syntax

/-!
# Induction on executions

Most facts about execution say that two executions are related, of the same program or of
a program and its translation (`Translation`). The relation holds of the few actions that
statements are made of, and it is kept by the ways in which these are put together: one
after the other, inside a frame, and round and round (`Exec.Composed`). Which programs it
is about can be told from their parts (`Translation.Parts`). Then the executions of these
programs are related (`Statement.exec_of_parts`).

A fact about a single execution is one where the second execution plays no part, and the
translation changes nothing (`Translation.refl`).

The relation may depend on two things. There is a *level*, which is raised inside of a
frame. And there are *stages*: a statement leads from one stage to the next, as
declarations may, and a stage is over when its frame is left.
-/

namespace Tudlo

/-! ### Translations -/

/-- Programs are translated part by part: the expressions and the names change, and nothing
    else. -/
structure Translation where
  expr : Expr → Expr
  names : List String → List String
  statement : Statement → Statement
  block : Block → Block
  all : List Statement → List Statement
  declare (type : ScalarType) (ns : List String) (initial : Option Expr) (pos : Position) :
    statement (.declare type ns initial pos) = .declare type (names ns) (initial.map expr) pos
  print (value : Expr) (pos : Position) : statement (.print value pos) = .print (expr value) pos
  read (ns : List String) (pos : Position) : statement (.read ns pos) = .read (names ns) pos
  blocks (body : Block) : statement (.block body) = .block (block body)
  choose (condition : Expr) (whenTrue : Block) (whenFalse : Option Block) (pos : Position) :
    statement (.choose condition whenTrue whenFalse pos) =
      .choose (expr condition) (block whenTrue) (whenFalse.map block) pos
  loop (initial : Statement) (condition : Expr) (step : Statement) (body : Block)
    (pos : Position) : statement (.loop initial condition step body pos) =
      .loop (statement initial) (expr condition) (statement step) (block body) pos
  compute (e : Expr) (pos : Position) : statement (.compute e pos) = .compute (expr e) pos
  body (statements : List Statement) (pos : Position) :
    block ⟨statements, pos⟩ = ⟨all statements, pos⟩
  nil : all [] = []
  cons (s : Statement) (rest : List Statement) : all (s :: rest) = statement s :: all rest

/-- The translation that changes nothing. -/
def Translation.refl : Translation where
  expr := id
  names := id
  statement := id
  block := id
  all := id
  declare type ns initial pos := by simp
  print _ _ := rfl
  read _ _ := rfl
  blocks _ := rfl
  choose condition whenTrue whenFalse pos := by simp
  loop _ _ _ _ _ := rfl
  compute _ _ := rfl
  body _ _ := rfl
  nil := rfl
  cons _ _ := rfl

theorem Translation.pos_block (t : Translation) (b : Block) : (t.block b).pos = b.pos := by
  obtain ⟨statements, pos⟩ := b
  rw [t.body]

/-! ### Related executions -/

/-- Relations between actions that lead from one stage to another, with a level for frames. -/
abbrev Exec.Relation (κ σ : Type) : Type 1 :=
  κ → σ → σ → (α : Type) → Exec α → Exec α → Prop

/-- A property of single executions, which depends on the level only. -/
abbrev Exec.Relation.ofProperty {κ : Type} (P : κ → (α : Type) → Exec α → Prop) :
    Exec.Relation κ Unit :=
  fun n _ _ α x _ => P n α x

section Related

variable {κ σ : Type}

/-- The relation is kept by the ways in which statements put actions together. The loops on
    the two sides may have limits of their own. -/
structure Exec.Composed (raise : κ → κ) (limit limit' : Nat) (P : Exec.Relation κ σ) :
    Prop where
  pure {n : κ} {i : σ} {α : Type} (a : α) : P n i i α (pure a) (pure a)
  bind {n : κ} {i j k : σ} {α β : Type} {x x' : Exec α} {f f' : α → Exec β} :
    P n i j α x x' → (∀ a, P n j k β (f a) (f' a)) → P n i k β (x >>= f) (x' >>= f')
  /-- The next stage need not be used. -/
  forget {n : κ} {i j : σ} {x x' : Exec Unit} : P n i j Unit x x' → P n i i Unit x x'
  framed {n : κ} {i j : σ} {x x' : Exec Unit} :
    P (raise n) i j Unit x x' → P n i i Unit (framed x) (framed x')
  rounds {n : κ} {i : σ} {condition condition' : Exec Bool} {round round' : Exec Unit} :
    P n i i Bool condition condition' → P n i i Unit round round' →
      P n i i Unit (rounds condition round limit) (rounds condition' round' limit')
  executing {n : κ} {i : σ} (pos : Position) :
    P n i i Unit (record (.executing pos)) (record (.executing pos))
  print {n : κ} {i : σ} (text : String) : P n i i Unit (print text) (print text)

/-- An expression and its translation are evaluated in related ways. -/
abbrev Translation.Evaluates (t : Translation) (P : Exec.Relation κ σ) (n : κ) (i : σ) (e : Expr) :
    Prop :=
  P n i i Value (Exec.eval e) (Exec.eval (t.expr e))

/-- The properties of statements and blocks pass to their parts, and what is done at the
    ends is related to its translation. -/
structure Translation.Parts (t : Translation) (raise : κ → κ) (P : Exec.Relation κ σ)
    (S : κ → σ → σ → Statement → Prop) (B : κ → σ → Block → Prop)
    (L : κ → σ → List Statement → Prop) : Prop where
  declare {n : κ} {i j : σ} {type : ScalarType} {names : List String} {initial : Option Expr}
    {pos : Position} : S n i j (.declare type names initial pos) →
    (∀ e ∈ initial, t.Evaluates P n i e) ∧
      ∀ value, P n i j Unit (Exec.declare type names value)
        (Exec.declare type (t.names names) value)
  print {n : κ} {i j : σ} {value : Expr} {pos : Position} :
    S n i j (.print value pos) → i = j ∧ t.Evaluates P n i value
  read {n : κ} {i j : σ} {names : List String} {pos : Position} : S n i j (.read names pos) →
    i = j ∧ P n i i Unit (Exec.receive names pos) (Exec.receive (t.names names) pos)
  block {n : κ} {i j : σ} {body : Block} : S n i j (.block body) → i = j ∧ B n i body
  choose {n : κ} {i j : σ} {condition : Expr} {whenTrue : Block} {whenFalse : Option Block}
    {pos : Position} : S n i j (.choose condition whenTrue whenFalse pos) →
    i = j ∧ t.Evaluates P n i condition ∧ B n i whenTrue ∧ ∀ b ∈ whenFalse, B n i b
  /-- The first clause may lead to a stage that the others are in. -/
  loop {n : κ} {i j : σ} {initial : Statement} {condition : Expr} {step : Statement}
    {body : Block} {pos : Position} : S n i j (.loop initial condition step body pos) →
    i = j ∧ ∃ k l, S (raise n) i k initial ∧ t.Evaluates P (raise n) k condition ∧
      S (raise n) k l step ∧ B (raise n) k body
  compute {n : κ} {i j : σ} {expr : Expr} {pos : Position} :
    S n i j (.compute expr pos) → i = j ∧ t.Evaluates P n i expr
  body {n : κ} {i : σ} {statements : List Statement} {pos : Position} :
    B n i ⟨statements, pos⟩ → L (raise n) i statements
  cons {n : κ} {i : σ} {s : Statement} {rest : List Statement} :
    L n i (s :: rest) → ∃ j, S n i j s ∧ L n j rest

variable {raise : κ → κ} {limit limit' : Nat} {P : Exec.Relation κ σ} {t : Translation}
  {S : κ → σ → σ → Statement → Prop} {B : κ → σ → Block → Prop}
  {L : κ → σ → List Statement → Prop}

/-- The relation passes from the parts of statements and blocks to the whole. -/
theorem Exec.Composed.inductive (h : Exec.Composed raise limit limit' P)
    (hp : t.Parts raise P S B L) : Statement.Inductive
      (fun s => ∀ n i j, S n i j s →
        P n i j Unit (s.exec limit) ((t.statement s).exec limit'))
      (fun b => ∀ n i, B n i b → P n i i Unit (b.exec limit) ((t.block b).exec limit'))
      (fun ss => ∀ n i, L n i ss → ∃ j, P n i j Unit (Statement.execAll limit ss)
        (Statement.execAll limit' (t.all ss))) where
  declare type names initial pos n i j hs := by
    obtain ⟨hi, hd⟩ := hp.declare hs
    rw [t.declare, Statement.exec, Statement.exec]
    refine h.bind (h.executing pos) fun _ => ?_
    cases initial with
    | none => exact h.bind (h.pure type.zero) hd
    | some e => exact h.bind (hi e rfl) hd
  print value pos n i j hs := by
    obtain ⟨rfl, hv⟩ := hp.print hs
    rw [t.print, Statement.exec, Statement.exec]
    exact h.bind (h.executing pos) fun _ => h.bind hv fun v => h.print v.display
  read names pos n i j hs := by
    obtain ⟨rfl, hr⟩ := hp.read hs
    rw [t.read, Statement.exec, Statement.exec]
    exact h.bind (h.executing pos) fun _ => hr
  block {body} ih n i j hs := by
    obtain ⟨rfl, hb⟩ := hp.block hs
    rw [t.blocks, Statement.exec, Statement.exec, t.pos_block]
    exact h.bind (h.executing body.pos) fun _ => ih n i hb
  choose condition whenTrue whenFalse pos iht ihf n i j hs := by
    obtain ⟨rfl, hc, ht, hf⟩ := hp.choose hs
    rw [t.choose, Statement.exec, Statement.exec]
    refine h.bind (h.executing pos) fun _ => h.bind hc fun v => ?_
    split
    · exact iht n i ht
    · cases whenFalse with
      | none => exact h.pure ()
      | some body => exact ihf body rfl n i (hf body rfl)
  loop {initial} condition {step body} pos ihi ihs ihb n i j hs := by
    obtain ⟨rfl, k, l, hi, hc, hs, hb⟩ := hp.loop hs
    rw [t.loop, Statement.exec, Statement.exec]
    -- The step may lead to another stage, but the next round starts from the one before.
    have hround := h.forget (h.bind (ihb _ _ hb) fun _ => ihs _ _ _ hs)
    have hrounds := h.rounds (h.bind hc fun v => h.pure v.truthy) hround
    exact h.bind (h.executing pos) fun _ => h.framed (h.bind (ihi _ _ _ hi) fun _ => hrounds)
  compute expr pos n i j hs := by
    obtain ⟨rfl, he⟩ := hp.compute hs
    rw [t.compute, Statement.exec, Statement.exec]
    exact h.bind (h.executing pos) fun _ => h.bind he fun _ => h.pure ()
  body pos ih n i hb := by
    obtain ⟨j, hx⟩ := ih _ _ (hp.body hb)
    rw [t.body, Block.exec, Block.exec]
    exact h.framed hx
  nil n i _ := by
    rw [t.nil, Statement.execAll, Statement.execAll]
    exact ⟨i, h.pure ()⟩
  cons ihs ihr n i hs := by
    obtain ⟨j, hs, hr⟩ := hp.cons hs
    obtain ⟨k, hx⟩ := ihr n j hr
    rw [t.cons, Statement.execAll, Statement.execAll]
    exact ⟨k, h.bind (ihs n i j hs) fun _ => hx⟩

/-- The executions of a statement and of its translation are related. -/
theorem Statement.exec_of_parts (h : Exec.Composed raise limit limit' P)
    (hp : t.Parts raise P S B L) {s : Statement} {n : κ} {i j : σ} (hs : S n i j s) :
    P n i j Unit (s.exec limit) ((t.statement s).exec limit') :=
  s.of_inductive (h.inductive hp) n i j hs

theorem Block.exec_of_parts (h : Exec.Composed raise limit limit' P)
    (hp : t.Parts raise P S B L) {b : Block} {n : κ} {i : σ} (hb : B n i b) :
    P n i i Unit (b.exec limit) ((t.block b).exec limit') :=
  b.of_inductive (h.inductive hp) n i hb

theorem Statement.execAll_of_parts (h : Exec.Composed raise limit limit' P)
    (hp : t.Parts raise P S B L) {ss : List Statement} {n : κ} {i : σ} (hs : L n i ss) :
    ∃ j, P n i j Unit (Statement.execAll limit ss) (Statement.execAll limit' (t.all ss)) :=
  Statement.all_of_inductive (h.inductive hp) ss n i hs

/-- A relation that holds when both sides are given up is kept by loops that go round as
    often as each other. -/
theorem Exec.rounds_of_exhausted (P : Exec.Relation κ σ) {n : κ} {i : σ}
    (hp : ∀ {α : Type} (a : α), P n i i α (pure a) (pure a))
    (hb : ∀ {α β : Type} {x x' : Exec α} {f f' : α → Exec β}, P n i i α x x' →
      (∀ a, P n i i β (f a) (f' a)) → P n i i β (x >>= f) (x' >>= f'))
    (ht : P n i i Unit (throw .exhausted) (throw .exhausted))
    {condition condition' : Exec Bool} {round round' : Exec Unit}
    (hc : P n i i Bool condition condition') (hr : P n i i Unit round round') :
    P n i i Unit (rounds condition round limit) (rounds condition' round' limit) := by
  induction limit with
  | zero => exact ht
  | succ limit ih =>
    refine hb hc fun b => ?_
    cases b with
    | false => exact hp ()
    | true => exact hb hr fun _ => ih

end Related

end Tudlo
