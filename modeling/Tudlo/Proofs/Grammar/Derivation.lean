import Tudlo.Grammar.Statement

/-!
# Derivations

The grammar as a relation between stretches of tokens and trees: a stretch *is*
an expression, a statement, a block, and this is the tree that it stands for.
Nothing is said here about how it is found out. Every token of a stretch has
its place in the derivation, in the order of the stretch, and the positions in
the tree are those of the tokens the nodes are known by.

    expression  =  assignment | operands "&" assignment
    operands    =  or ("&" or)*
    assignment  =  or ("=" expression)?
    or          =  and ("O" and)*
    and         =  equality ("UG" equality)*
    equality    =  comparison (("==" | "<>") comparison)*
    comparison  =  term ((">" | ">=" | "<" | "<=") term)*
    term        =  factor (("+" | "-") factor)*
    factor      =  unary (("*" | "/" | "%") unary)*
    unary       =  ("-" | "+" | "DILI") unary | primary
    primary     =  literal | name | "(" expression ")"

An expression is thus one assignment or more with `&` between them. Only the
last of these can have an equals sign of its own: what is assigned is a whole
expression again, and takes in every `&` that follows. So the ones before it
are called *operands*, and the grammar of expressions is not ambiguous.

What is repeated groups to the left: a rule goes on from a shorter stretch of
the same rule. The left side of an assignment stands for a variable, which
leaves it nothing but a name in any number of parentheses.

The statements are those of `Tudlo.Grammar.Statement`. The parentheses around
the clauses of a loop are both there or both missing.
-/

namespace Tudlo

/-! ### How operators are written -/

/-- The token that an operator with two operands is written with. -/
def BinaryOp.token : BinaryOp → TokenKind
  | .add => .symbol .plus
  | .sub => .symbol .minus
  | .mul => .symbol .star
  | .div => .symbol .slash
  | .rem => .symbol .percent
  | .less => .symbol .less
  | .greater => .symbol .greater
  | .lessEqual => .symbol .lessEqual
  | .greaterEqual => .symbol .greaterEqual
  | .equal => .symbol .equal
  | .notEqual => .symbol .notEqual
  | .and => .keyword .ug
  | .or => .keyword .o
  | .join => .symbol .ampersand

/-- The level of an operator with two operands. Joining texts has none, as it
    binds looser than assignment. -/
def BinaryOp.level? : BinaryOp → Option Level
  | .add | .sub => some .term
  | .mul | .div | .rem => some .factor
  | .less | .greater | .lessEqual | .greaterEqual => some .comparison
  | .equal | .notEqual => some .equality
  | .and => some .and
  | .or => some .or
  | .join => none

/-- The token that an operator with one operand is written with. -/
def UnaryOp.token : UnaryOp → TokenKind
  | .negate => .symbol .minus
  | .plus => .symbol .plus
  | .not => .keyword .dili

/-! ### Expressions -/

/-- The rules of the grammar of expressions. -/
inductive Rule where
  | expression
  /-- An expression that can still be followed by `&`. -/
  | operands
  | assignment
  | level (l : Level)
  | unary
  | primary
  deriving DecidableEq

/-- The rule for the operands of a level. -/
def Level.operand : Level → Rule
  | .or => .level .and
  | .and => .level .equality
  | .equality => .level .comparison
  | .comparison => .level .term
  | .term => .level .factor
  | .factor => .unary

/-- The stretch of tokens is derived by the rule, and the expression is its
    tree. -/
inductive Rule.Derives : Rule → List Token → Expr → Prop
  | literal {t : Token} {l : Literal} : t.kind = .literal l →
      Derives .primary [t] (.literal l.value t.pos)
  | name {t : Token} {s : String} : t.kind = .name s → Derives .primary [t] (.var s t.pos)
  | parentheses {o c : Token} {ts : List Token} {e : Expr} : o.kind = .symbol .openParen →
      Derives .expression ts e → c.kind = .symbol .closeParen →
      Derives .primary (o :: (ts ++ [c])) e
  | primary {ts : List Token} {e : Expr} : Derives .primary ts e → Derives .unary ts e
  | unary {op : UnaryOp} {t : Token} {ts : List Token} {e : Expr} : t.kind = op.token →
      Derives .unary ts e → Derives .unary (t :: ts) (.unary op e t.pos)
  | operand {l : Level} {ts : List Token} {e : Expr} : Derives l.operand ts e →
      Derives (.level l) ts e
  | operation {op : BinaryOp} {l : Level} {t : Token} {ts us : List Token} {e d : Expr} :
      op.level? = some l → Derives (.level l) ts e → t.kind = op.token →
      Derives l.operand us d → Derives (.level l) (ts ++ t :: us) (.binary op e d t.pos)
  | value {ts : List Token} {e : Expr} : Derives (.level .or) ts e → Derives .assignment ts e
  | assign {t : Token} {ts us : List Token} {s : String} {pos : Position} {e : Expr} :
      Derives (.level .or) ts (.var s pos) → t.kind = .symbol .assign →
      Derives .expression us e → Derives .assignment (ts ++ t :: us) (.assign s e pos)
  | first {ts : List Token} {e : Expr} : Derives (.level .or) ts e → Derives .operands ts e
  | next {t : Token} {ts us : List Token} {e d : Expr} : Derives .operands ts e →
      t.kind = BinaryOp.join.token → Derives (.level .or) us d →
      Derives .operands (ts ++ t :: us) (.binary .join e d t.pos)
  | single {ts : List Token} {e : Expr} : Derives .assignment ts e → Derives .expression ts e
  | last {t : Token} {ts us : List Token} {e d : Expr} : Derives .operands ts e →
      t.kind = BinaryOp.join.token → Derives .assignment us d →
      Derives .expression (ts ++ t :: us) (.binary .join e d t.pos)

/-- No rule derives the empty stretch. -/
theorem Rule.Derives.ne_nil {r : Rule} {ts : List Token} {e : Expr} (h : r.Derives ts e) :
    ts ≠ [] := by
  induction h with
  | literal | name | parentheses | unary => exact List.cons_ne_nil _ _
  | operation | assign | next | last => exact List.append_ne_nil_of_right_ne_nil _ (by simp)
  | primary _ ih | operand _ ih | value _ ih | first _ ih | single _ ih => exact ih

/-- Operands are an expression. -/
theorem Rule.Derives.expression_of_operands {ts : List Token} {e : Expr}
    (h : Rule.operands.Derives ts e) : Rule.expression.Derives ts e := by
  cases h with
  | first hd => exact .single (.value hd)
  | next hl hk hr => exact .last hl hk (.value hr)

/-! ### Statements -/

/-- The stretch of tokens is one name or more, with commas between them. -/
inductive NamesDerive : List Token → List String → Prop
  | last {t : Token} {s : String} : t.kind = .name s → NamesDerive [t] [s]
  | more {t c : Token} {s : String} {ts : List Token} {ss : List String} : t.kind = .name s →
      c.kind = .symbol .comma → NamesDerive ts ss → NamesDerive (t :: c :: ts) (s :: ss)

/-- The stretch of tokens is a type, the names declared with it, and their
    initial value if there is one. -/
inductive TypedDerives : List Token → Statement → Prop
  | bare {t : Token} {type : ScalarType} {ts : List Token} {names : List String} :
      t.kind = .keyword (.scalar type) → NamesDerive ts names →
      TypedDerives (t :: ts) (.declare type names none t.pos)
  | initialised {t q : Token} {type : ScalarType} {ts us : List Token} {names : List String}
      {e : Expr} : t.kind = .keyword (.scalar type) → NamesDerive ts names →
      q.kind = .symbol .assign → Rule.expression.Derives us e →
      TypedDerives (t :: (ts ++ q :: us)) (.declare type names (some e) t.pos)

/-- The stretch of tokens is the first or last clause of a loop. -/
inductive ClauseDerives : List Token → Statement → Prop
  | declared {t : Token} {ts : List Token} {s : Statement} : t.kind = .keyword .mugna →
      TypedDerives ts s → ClauseDerives (t :: ts) s
  | computed {t : Token} {ts : List Token} {e : Expr} :
      Rule.expression.Derives (t :: ts) e → ClauseDerives (t :: ts) (.compute e t.pos)

/-- The stretch of tokens is the three clauses of a loop, with commas between
    them. -/
inductive ClausesDerive : List Token → Statement → Expr → Statement → Prop
  | mk {c c' : Token} {ts us vs : List Token} {initial step : Statement} {condition : Expr} :
      ClauseDerives ts initial → c.kind = .symbol .comma →
      Rule.expression.Derives us condition → c'.kind = .symbol .comma →
      ClauseDerives vs step →
      ClausesDerive (ts ++ c :: (us ++ c' :: vs)) initial condition step

/-- What a stretch of tokens that contains declarations can be, with the tree
    that it stands for. -/
inductive Phrase where
  | declaration (s : Statement)
  | statement (s : Statement)
  /-- What follows the keyword of a condition, which is at `pos`. -/
  | choice (s : Statement) (pos : Position)
  | block (b : Block)
  | declarations (ss : List Statement)

/-- The stretch of tokens is the phrase. -/
inductive Phrase.Derives : Phrase → List Token → Prop
  | announced {t : Token} {ts : List Token} {s : Statement} : t.kind = .keyword .mugna →
      TypedDerives ts s → Derives (.declaration s) (t :: ts)
  | plain {ts : List Token} {s : Statement} : Derives (.statement s) ts →
      Derives (.declaration s) ts
  | print {t c : Token} {ts : List Token} {e : Expr} : t.kind = .keyword .ipakita →
      c.kind = .symbol .colon → Rule.expression.Derives ts e →
      Derives (.statement (.print e t.pos)) (t :: c :: ts)
  | read {t c : Token} {ts : List Token} {names : List String} : t.kind = .keyword .dawat →
      c.kind = .symbol .colon → NamesDerive ts names →
      Derives (.statement (.read names t.pos)) (t :: c :: ts)
  | typed {ts : List Token} {s : Statement} : TypedDerives ts s → Derives (.statement s) ts
  | choose {t : Token} {ts : List Token} {s : Statement} : t.kind = .keyword .kung →
      Derives (.choice s t.pos) ts → Derives (.statement s) (t :: ts)
  | loop {t : Token} {ts us : List Token} {initial step : Statement} {condition : Expr}
      {body : Block} : t.kind = .keyword .alangSa → ClausesDerive ts initial condition step →
      Derives (.block body) us →
      Derives (.statement (.loop initial condition step body t.pos)) (t :: (ts ++ us))
  | loopInParentheses {t o p : Token} {ts us : List Token} {initial step : Statement}
      {condition : Expr} {body : Block} : t.kind = .keyword .alangSa →
      o.kind = .symbol .openParen → ClausesDerive ts initial condition step →
      p.kind = .symbol .closeParen → Derives (.block body) us →
      Derives (.statement (.loop initial condition step body t.pos)) (t :: o :: (ts ++ p :: us))
  | nested {ts : List Token} {b : Block} : Derives (.block b) ts →
      Derives (.statement (.block b)) ts
  | compute {t : Token} {ts : List Token} {e : Expr} : Rule.expression.Derives (t :: ts) e →
      Derives (.statement (.compute e t.pos)) (t :: ts)
  | only {ts us : List Token} {e : Expr} {b : Block} {pos : Position} :
      Rule.expression.Derives ts e → Derives (.block b) us →
      Derives (.choice (.choose e b none pos) pos) (ts ++ us)
  | otherwise {t : Token} {ts us vs : List Token} {e : Expr} {b b' : Block} {pos : Position} :
      Rule.expression.Derives ts e → Derives (.block b) us → t.kind = .keyword .kungWala →
      Derives (.block b') vs →
      Derives (.choice (.choose e b (some b') pos) pos) (ts ++ (us ++ t :: vs))
  | again {t : Token} {ts us vs : List Token} {e : Expr} {b : Block} {s : Statement}
      {pos : Position} : Rule.expression.Derives ts e → Derives (.block b) us →
      t.kind = .keyword .kungDili → Derives (.choice s t.pos) vs →
      Derives (.choice (.choose e b (some ⟨[s], t.pos⟩) pos) pos) (ts ++ (us ++ t :: vs))
  | braces {o c : Token} {ts : List Token} {ss : List Statement} :
      o.kind = .symbol .openBrace → Derives (.declarations ss) ts →
      c.kind = .symbol .closeBrace → Derives (.block ⟨ss, o.pos⟩) (o :: (ts ++ [c]))
  | marked {p o c : Token} {ts : List Token} {ss : List Statement} :
      p.kind = .keyword .pundok → o.kind = .symbol .openBrace →
      Derives (.declarations ss) ts → c.kind = .symbol .closeBrace →
      Derives (.block ⟨ss, p.pos⟩) (p :: o :: (ts ++ [c]))
  | done : Derives (.declarations []) []
  | more {ts us : List Token} {s : Statement} {ss : List Statement} :
      Derives (.declaration s) ts → Derives (.declarations ss) us →
      Derives (.declarations (s :: ss)) (ts ++ us)

end Tudlo
