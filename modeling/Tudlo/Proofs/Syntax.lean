import Tudlo.Syntax

/-!
# Induction on programs

Statements contain blocks, and blocks contain statements. What holds of the whole because
it holds of the parts (`Statement.Inductive`) is proved by one induction on both, which is
done here and nowhere else.
-/

namespace Tudlo

/-- The properties pass from the parts of statements and blocks to the whole. -/
structure Statement.Inductive (S : Statement → Prop) (B : Block → Prop)
    (L : List Statement → Prop) : Prop where
  declare (type : ScalarType) (names : List String) (initial : Option Expr) (pos : Position) :
    S (.declare type names initial pos)
  print (value : Expr) (pos : Position) : S (.print value pos)
  read (names : List String) (pos : Position) : S (.read names pos)
  block {body : Block} : B body → S (.block body)
  choose (condition : Expr) {whenTrue : Block} {whenFalse : Option Block} (pos : Position) :
    B whenTrue → (∀ b ∈ whenFalse, B b) → S (.choose condition whenTrue whenFalse pos)
  loop {initial : Statement} (condition : Expr) {step : Statement} {body : Block}
    (pos : Position) : S initial → S step → B body → S (.loop initial condition step body pos)
  compute (expr : Expr) (pos : Position) : S (.compute expr pos)
  body {statements : List Statement} (pos : Position) : L statements → B ⟨statements, pos⟩
  nil : L []
  cons {s : Statement} {rest : List Statement} : S s → L rest → L (s :: rest)

section Inductive

variable {S : Statement → Prop} {B : Block → Prop} {L : List Statement → Prop}

mutual

theorem Statement.of_inductive (h : Statement.Inductive S B L) : (s : Statement) → S s
  | .declare type names initial pos => h.declare type names initial pos
  | .print value pos => h.print value pos
  | .read names pos => h.read names pos
  | .block body => h.block (body.of_inductive h)
  | .choose condition whenTrue whenFalse pos =>
    h.choose condition pos (whenTrue.of_inductive h) (Block.any_of_inductive h whenFalse)
  | .loop initial condition step body pos =>
    h.loop condition pos (initial.of_inductive h) (step.of_inductive h) (body.of_inductive h)
  | .compute expr pos => h.compute expr pos
  termination_by structural s => s

theorem Block.of_inductive (h : Statement.Inductive S B L) : (b : Block) → B b
  | ⟨statements, pos⟩ => h.body pos (Statement.all_of_inductive h statements)
  termination_by structural b => b

theorem Block.any_of_inductive (h : Statement.Inductive S B L) :
    (b : Option Block) → ∀ body ∈ b, B body
  | none => fun _ hb => absurd hb (by simp)
  | some body => fun _ hb => Option.some.inj hb ▸ body.of_inductive h
  termination_by structural b => b

theorem Statement.all_of_inductive (h : Statement.Inductive S B L) :
    (ss : List Statement) → L ss
  | [] => h.nil
  | s :: rest => h.cons (s.of_inductive h) (Statement.all_of_inductive h rest)
  termination_by structural ss => ss

end

end Inductive

end Tudlo
