import Tudlo.Proofs.Grammar.Completeness.Statement
import Tudlo.Proofs.Syntax

/-!
# Printing

How a tree is written as tokens, of which only the kinds matter. Printing is a
relation, because there are choices to make, and they are made anew at every
place:

* a block with or without `PUNDOK` before it;
* the clauses of a loop with or without parentheses around them;
* when all that is done otherwise is another condition, `KUNG DILI`, or
  `KUNG WALA` and a block with `KUNG` in it;
* `MUGNA` before a declaration or not, where it is not asked for;
* the literals that stand for a value.

There is no choice about parentheses inside of expressions. A *place* is a
number that says how tightly what stands there has to bind, and an expression
is put in parentheses when it binds looser than its place asks for
(`Expr.Printed`). On the right of an operator stands a place that is tighter
than the operator, as operators group to the left. An assignment binds looser
than all operators, and the place for what is assigned takes anything. An
expression as a statement is always in parentheses.

* `Statement.unplaced`: a tree without its positions;
* `Statement.Printable`: the trees that can be printed;
* `Statement.exists_printed_all`: they have a printing.
-/

namespace Tudlo

/-! ### Trees without positions -/

/-- The expression with all positions forgotten. -/
def Expr.unplaced : Expr → Expr
  | .literal value _ => .literal value .nowhere
  | .var name _ => .var name .nowhere
  | .assign name value _ => .assign name value.unplaced .nowhere
  | .unary op operand _ => .unary op operand.unplaced .nowhere
  | .binary op left right _ => .binary op left.unplaced right.unplaced .nowhere

mutual

/-- The statement with all positions forgotten. -/
def Statement.unplaced : Statement → Statement
  | .declare type names initial _ => .declare type names (initial.map Expr.unplaced) .nowhere
  | .print value _ => .print value.unplaced .nowhere
  | .read names _ => .read names .nowhere
  | .block body => .block body.unplaced
  | .choose condition whenTrue whenFalse _ =>
    .choose condition.unplaced whenTrue.unplaced (Block.unplacedAny whenFalse) .nowhere
  | .loop initial condition step body _ =>
    .loop initial.unplaced condition.unplaced step.unplaced body.unplaced .nowhere
  | .compute expr _ => .compute expr.unplaced .nowhere
  termination_by structural s => s

/-- The block with all positions forgotten. -/
def Block.unplaced : Block → Block
  | ⟨statements, _⟩ => ⟨Statement.unplacedAll statements, .nowhere⟩
  termination_by structural b => b

/-- The block, if there is one, with all positions forgotten. -/
def Block.unplacedAny : Option Block → Option Block
  | none => none
  | some body => some body.unplaced
  termination_by structural b => b

/-- The statements with all positions forgotten. -/
def Statement.unplacedAll : List Statement → List Statement
  | [] => []
  | s :: rest => s.unplaced :: Statement.unplacedAll rest
  termination_by structural ss => ss

end

/-! ### What can be printed -/

/-- No literal is the null value, for which there is none. -/
def Expr.Printable : Expr → Prop
  | .literal value _ => value ≠ .null
  | .var _ _ => True
  | .assign _ value _ => value.Printable
  | .unary _ operand _ => operand.Printable
  | .binary _ left right _ => left.Printable ∧ right.Printable

/-- The statement can be the first or last clause of a loop. -/
def Statement.IsClause : Statement → Prop
  | .declare .. => True
  | .compute .. => True
  | _ => False

mutual

/-- Names are not missing where names are asked for, the clauses of loops are
    declarations or expressions, a declaration in the first clause has a
    value, and no literal is the null value. -/
def Statement.Printable : Statement → Prop
  | .declare _ names initial _ => names ≠ [] ∧ ∀ e ∈ initial, e.Printable
  | .print value _ => value.Printable
  | .read names _ => names ≠ []
  | .block body => body.Printable
  | .choose condition whenTrue whenFalse _ =>
    condition.Printable ∧ whenTrue.Printable ∧ Block.PrintableAny whenFalse
  | .loop initial condition step body _ =>
    (initial.IsClause ∧ initial.endsBeforeComma = true ∧ initial.Printable) ∧
      condition.Printable ∧ (step.IsClause ∧ step.Printable) ∧ body.Printable
  | .compute expr _ => expr.Printable
  termination_by structural s => s

/-- All statements of the block can be printed. -/
def Block.Printable : Block → Prop
  | ⟨statements, _⟩ => Statement.PrintableAll statements
  termination_by structural b => b

/-- The block can be printed, if there is one. -/
def Block.PrintableAny : Option Block → Prop
  | none => True
  | some body => body.Printable
  termination_by structural b => b

/-- All statements can be printed. -/
def Statement.PrintableAll : List Statement → Prop
  | [] => True
  | s :: rest => s.Printable ∧ Statement.PrintableAll rest
  termination_by structural ss => ss

end

/-! ### Expressions -/

/-- How tightly an expression binds: an assignment less than all operators,
    and what is not made of parts most of all. -/
def Expr.rank : Expr → Nat
  | .assign .. => 0
  | .binary op .. => op.rank
  | .unary .. => 8
  | .literal .. => 9
  | .var .. => 9

/-- The expression is printed as these tokens at a place that asks for the
    given rank. -/
inductive Expr.Printed : (place : Nat) → Expr → List TokenKind → Prop
  | literal {place : Nat} {l : Literal} {value : Value} {pos : Position} : l.value = value →
      Printed place (.literal value pos) [.literal l]
  | var {place : Nat} {s : String} {pos : Position} : Printed place (.var s pos) [.name s]
  | assign {s : String} {e : Expr} {pos : Position} {ks : List TokenKind} : Printed 0 e ks →
      Printed 0 (.assign s e pos) (.name s :: .symbol .assign :: ks)
  | unary {place : Nat} {op : UnaryOp} {e : Expr} {pos : Position} {ks : List TokenKind} :
      place ≤ 8 → Printed 8 e ks → Printed place (.unary op e pos) (op.token :: ks)
  | binary {place : Nat} {op : BinaryOp} {e d : Expr} {pos : Position}
      {ks js : List TokenKind} : place ≤ op.rank → Printed op.rank e ks →
      Printed (op.rank + 1) d js → Printed place (.binary op e d pos) (ks ++ op.token :: js)
  | parentheses {place : Nat} {e : Expr} {ks : List TokenKind} : e.rank < place →
      Printed 0 e ks →
      Printed place e (.symbol .openParen :: (ks ++ [.symbol .closeParen]))

/-- An expression is printed in parentheses wherever it is not printed
    without. -/
theorem Expr.exists_printed_of_le {e : Expr}
    (h : ∃ ks, ∀ place ≤ e.rank, Expr.Printed place e ks) (place : Nat) :
    ∃ ks, Expr.Printed place e ks := by
  obtain ⟨ks, h⟩ := h
  by_cases hp : place ≤ e.rank
  · exact ⟨ks, h place hp⟩
  · exact ⟨_, .parentheses (Nat.lt_of_not_le hp) (h 0 (Nat.zero_le _))⟩

/-- Every value but the null value has a literal. -/
theorem Value.exists_literal {value : Value} (h : value ≠ .null) :
    ∃ l : Literal, l.value = value := by
  cases value with
  | null => exact absurd rfl h
  | integer n => exact ⟨.integer n, rfl⟩
  | decimal d => exact ⟨.decimal d, rfl⟩
  | character c => exact ⟨.character c, rfl⟩
  | text s => exact ⟨.text s, rfl⟩
  | boolean b => exact ⟨.boolean b, rfl⟩

theorem Expr.exists_printed {e : Expr} (h : e.Printable) (place : Nat) :
    ∃ ks, Expr.Printed place e ks := by
  induction e generalizing place with
  | literal value pos =>
    obtain ⟨l, hl⟩ := Value.exists_literal h
    exact ⟨_, .literal hl⟩
  | var s pos => exact ⟨_, .var⟩
  | assign s e pos ih =>
    obtain ⟨ks, hk⟩ := ih h 0
    -- An assignment has the least rank, so it needs no parentheses at one place only.
    refine exists_printed_of_le ⟨.name s :: .symbol .assign :: ks, fun place hp => ?_⟩ place
    obtain rfl := Nat.le_zero.1 hp
    exact .assign hk
  | unary op e pos ih =>
    obtain ⟨ks, hk⟩ := ih h 8
    exact exists_printed_of_le ⟨_, fun place hp => .unary hp hk⟩ place
  | binary op e d pos ih ihd =>
    obtain ⟨ks, hk⟩ := ih h.1 op.rank
    obtain ⟨js, hj⟩ := ihd h.2 (op.rank + 1)
    exact exists_printed_of_le ⟨_, fun place hp => .binary hp hk hj⟩ place

/-! ### Statements -/

/-- The names are printed with commas between them. -/
inductive NamesPrinted : List String → List TokenKind → Prop
  | last {s : String} : NamesPrinted [s] [.name s]
  | more {s : String} {ss : List String} {ks : List TokenKind} : NamesPrinted ss ks →
      NamesPrinted (s :: ss) (.name s :: .symbol .comma :: ks)

/-- The declaration is printed, without `MUGNA`. -/
inductive TypedPrinted : Statement → List TokenKind → Prop
  | bare {type : ScalarType} {names : List String} {pos : Position} {ks : List TokenKind} :
      NamesPrinted names ks →
      TypedPrinted (.declare type names none pos) (.keyword (.scalar type) :: ks)
  | initialised {type : ScalarType} {names : List String} {e : Expr} {pos : Position}
      {ks js : List TokenKind} : NamesPrinted names ks → Expr.Printed 0 e js →
      TypedPrinted (.declare type names (some e) pos)
        (.keyword (.scalar type) :: (ks ++ .symbol .assign :: js))

/-- The first or last clause of a loop is printed. -/
inductive ClausePrinted : Statement → List TokenKind → Prop
  | declared {s : Statement} {ks : List TokenKind} : TypedPrinted s ks →
      ClausePrinted s (.keyword .mugna :: ks)
  | computed {e : Expr} {pos : Position} {ks : List TokenKind} : Expr.Printed 0 e ks →
      ClausePrinted (.compute e pos) (.symbol .openParen :: (ks ++ [.symbol .closeParen]))

/-- The three clauses of a loop are printed, with commas between them. -/
inductive ClausesPrinted : Statement → Expr → Statement → List TokenKind → Prop
  | mk {initial step : Statement} {condition : Expr} {is cs ss : List TokenKind} :
      initial.endsBeforeComma = true → ClausePrinted initial is → Expr.Printed 0 condition cs →
      ClausePrinted step ss →
      ClausesPrinted initial condition step
        (is ++ .symbol .comma :: (cs ++ .symbol .comma :: ss))

/-- The phrase is printed. -/
inductive Phrase.Printed : Phrase → List TokenKind → Prop
  | announced {s : Statement} {ks : List TokenKind} : TypedPrinted s ks →
      Printed (.declaration s) (.keyword .mugna :: ks)
  | plain {s : Statement} {ks : List TokenKind} : Printed (.statement s) ks →
      Printed (.declaration s) ks
  | print {e : Expr} {pos : Position} {ks : List TokenKind} : Expr.Printed 0 e ks →
      Printed (.statement (.print e pos)) (.keyword .ipakita :: .symbol .colon :: ks)
  | read {names : List String} {pos : Position} {ks : List TokenKind} : NamesPrinted names ks →
      Printed (.statement (.read names pos)) (.keyword .dawat :: .symbol .colon :: ks)
  | typed {s : Statement} {ks : List TokenKind} : TypedPrinted s ks → Printed (.statement s) ks
  | choose {s : Statement} {ks : List TokenKind} : Printed (.choice s s.pos) ks →
      Printed (.statement s) (.keyword .kung :: ks)
  | loop {initial step : Statement} {condition : Expr} {body : Block} {pos : Position}
      {ks js : List TokenKind} : ClausesPrinted initial condition step ks →
      Printed (.block body) js →
      Printed (.statement (.loop initial condition step body pos))
        (.keyword .alangSa :: (ks ++ js))
  | loopInParentheses {initial step : Statement} {condition : Expr} {body : Block}
      {pos : Position} {ks js : List TokenKind} : ClausesPrinted initial condition step ks →
      Printed (.block body) js →
      Printed (.statement (.loop initial condition step body pos))
        (.keyword .alangSa :: .symbol .openParen :: (ks ++ .symbol .closeParen :: js))
  | nested {b : Block} {ks : List TokenKind} : Printed (.block b) ks →
      Printed (.statement (.block b)) ks
  | compute {e : Expr} {pos : Position} {ks : List TokenKind} : Expr.Printed 0 e ks →
      Printed (.statement (.compute e pos)) (.symbol .openParen :: (ks ++ [.symbol .closeParen]))
  | only {e : Expr} {b : Block} {pos : Position} {ks js : List TokenKind} :
      Expr.Printed 0 e ks → Printed (.block b) js →
      Printed (.choice (.choose e b none pos) pos) (ks ++ js)
  | otherwise {e : Expr} {b b' : Block} {pos : Position} {ks js is : List TokenKind} :
      Expr.Printed 0 e ks → Printed (.block b) js → Printed (.block b') is →
      Printed (.choice (.choose e b (some b') pos) pos) (ks ++ (js ++ .keyword .kungWala :: is))
  | again {e : Expr} {b : Block} {s : Statement} {pos pos' : Position}
      {ks js is : List TokenKind} : Expr.Printed 0 e ks → Printed (.block b) js →
      Printed (.choice s s.pos) is →
      Printed (.choice (.choose e b (some ⟨[s], pos'⟩) pos) pos)
        (ks ++ (js ++ .keyword .kungDili :: is))
  | braces {ss : List Statement} {pos : Position} {ks : List TokenKind} :
      Printed (.declarations ss) ks →
      Printed (.block ⟨ss, pos⟩) (.symbol .openBrace :: (ks ++ [.symbol .closeBrace]))
  | marked {ss : List Statement} {pos : Position} {ks : List TokenKind} :
      Printed (.declarations ss) ks →
      Printed (.block ⟨ss, pos⟩)
        (.keyword .pundok :: .symbol .openBrace :: (ks ++ [.symbol .closeBrace]))
  | done : Printed (.declarations []) []
  | more {s : Statement} {ss : List Statement} {ks js : List TokenKind} :
      Printed (.declaration s) ks → Printed (.declarations ss) js →
      Printed (.declarations (s :: ss)) (ks ++ js)

theorem NamesPrinted.exists_of_ne_nil {ss : List String} (h : ss ≠ []) :
    ∃ ks, NamesPrinted ss ks := by
  induction ss with
  | nil => exact absurd rfl h
  | cons s ss ih =>
    cases ss with
    | nil => exact ⟨_, .last⟩
    | cons s' ss =>
      obtain ⟨ks, hk⟩ := ih (List.cons_ne_nil _ _)
      exact ⟨_, .more hk⟩

theorem TypedPrinted.exists_of_printable {type : ScalarType} {names : List String}
    {initial : Option Expr} {pos : Position} (hn : names ≠ [])
    (hi : ∀ e ∈ initial, e.Printable) :
    ∃ ks, TypedPrinted (.declare type names initial pos) ks := by
  obtain ⟨ks, hk⟩ := NamesPrinted.exists_of_ne_nil hn
  cases initial with
  | none => exact ⟨_, .bare hk⟩
  | some e =>
    obtain ⟨js, hj⟩ := Expr.exists_printed (hi e rfl) 0
    exact ⟨_, .initialised hk hj⟩

theorem ClausePrinted.exists_of_printable {s : Statement} (hc : s.IsClause) (h : s.Printable) :
    ∃ ks, ClausePrinted s ks := by
  cases s with
  | declare type names initial pos =>
    obtain ⟨ks, hk⟩ := TypedPrinted.exists_of_printable h.1 h.2
    exact ⟨_, .declared hk⟩
  | compute e pos =>
    obtain ⟨ks, hk⟩ := Expr.exists_printed h 0
    exact ⟨_, .computed hk⟩
  | _ => exact hc.elim

/-- A statement that can be printed has a printing, if its parts have one. -/
theorem Statement.printed_inductive : Statement.Inductive
    (fun s => s.Printable → ∃ ks, Phrase.Printed (.statement s) ks)
    (fun b => b.Printable → ∃ ks, Phrase.Printed (.block b) ks)
    (fun ss => Statement.PrintableAll ss → ∃ ks, Phrase.Printed (.declarations ss) ks) where
  declare _ _ _ _ h := by
    obtain ⟨ks, hk⟩ := TypedPrinted.exists_of_printable h.1 h.2
    exact ⟨_, .typed hk⟩
  print e _ h := by
    obtain ⟨ks, hk⟩ := Expr.exists_printed (e := e) h 0
    exact ⟨_, .print hk⟩
  read names _ h := by
    have hn : names ≠ [] := h
    obtain ⟨ks, hk⟩ := NamesPrinted.exists_of_ne_nil hn
    exact ⟨_, .read hk⟩
  block ih h := by
    obtain ⟨ks, hk⟩ := ih h
    exact ⟨_, .nested hk⟩
  choose e {b b'} _ iht ihf h := by
    obtain ⟨ks, hk⟩ := Expr.exists_printed h.1 0
    obtain ⟨js, hj⟩ := iht h.2.1
    cases b' with
    | none => exact ⟨_, .choose (.only hk hj)⟩
    | some b' =>
      obtain ⟨is, hi⟩ := ihf b' rfl h.2.2
      exact ⟨_, .choose (.otherwise hk hj hi)⟩
  loop {_} _ {_ _} _ _ _ ih h := by
    -- The clauses of a loop are no statements of their own.
    obtain ⟨⟨hc, hb, hp⟩, he, ⟨hc', hp'⟩, hd⟩ := h
    obtain ⟨is, hi⟩ := ClausePrinted.exists_of_printable hc hp
    obtain ⟨cs, hcs⟩ := Expr.exists_printed he 0
    obtain ⟨ss, hs⟩ := ClausePrinted.exists_of_printable hc' hp'
    obtain ⟨js, hj⟩ := ih hd
    exact ⟨_, .loop (.mk hb hi hcs hs) hj⟩
  compute e _ h := by
    obtain ⟨ks, hk⟩ := Expr.exists_printed (e := e) h 0
    exact ⟨_, .compute hk⟩
  body _ ih h := by
    obtain ⟨ks, hk⟩ := ih h
    exact ⟨_, .braces hk⟩
  nil _ := ⟨_, .done⟩
  cons ihs ihr h := by
    obtain ⟨ks, hk⟩ := ihs h.1
    obtain ⟨js, hj⟩ := ihr h.2
    exact ⟨_, .more (.plain hk) hj⟩

/-- Statements that can be printed have a printing. -/
theorem Statement.exists_printed_all (ss : List Statement) (h : Statement.PrintableAll ss) :
    ∃ ks, Phrase.Printed (.declarations ss) ks :=
  Statement.all_of_inductive Statement.printed_inductive ss h

end Tudlo
