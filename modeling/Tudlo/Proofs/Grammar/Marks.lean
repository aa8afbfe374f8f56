import Tudlo.Proofs.Grammar.Soundness.Statement
import Tudlo.Proofs.Machine.Blame

/-!
# Every node is marked by a token

The nodes of a program that is read are at the positions of tokens, and of tokens of
the right kind: an operation is at its operator, a variable and an assignment at the
name, and a statement that reads input at its keyword, which the names follow
(`Node.MarkedBy`).

This is read off the derivations, whose stretches of tokens contain those of their
parts (`Marked.mono`).
-/

namespace Tudlo

/-! ### Marks -/

/-- The kind of the token that an expression is known by. -/
def Expr.MarkedBy (kind : TokenKind) : Expr → Prop
  | .literal _ _ => ∃ l, kind = .literal l
  | .var name _ => kind = .name name
  | .assign name _ _ => kind = .name name
  | .unary op _ _ => kind = op.token
  | .binary op _ _ _ => kind = op.token

/-- The token is the keyword of a statement that reads input, and among the tokens it
    is followed by a colon and the names. -/
def Token.IsRead (t : Token) (names : List String) (tokens : List Token) : Prop :=
  t.kind = .keyword .dawat ∧ ∃ c ns, c.kind = .symbol .colon ∧ NamesDerive ns names ∧
    t :: c :: ns <:+: tokens

/-- The token among the others is the one that the node is known by. -/
def Node.MarkedBy (t : Token) (tokens : List Token) : Node → Prop
  | .expr e => e.MarkedBy t.kind
  | .read names _ => t.IsRead names tokens

/-- Every one of the nodes is at the position of a token that it is known by. -/
def Marked (tokens : List Token) (nodes : List Node) : Prop :=
  ∀ n ∈ nodes, ∃ t ∈ tokens, t.pos = n.pos ∧ n.MarkedBy t tokens

theorem Marked.nil (tokens : List Token) : Marked tokens [] :=
  fun _ h => absurd h List.not_mem_nil

theorem Marked.append {tokens : List Token} {ns ms : List Node} (hn : Marked tokens ns)
    (hm : Marked tokens ms) : Marked tokens (ns ++ ms) :=
  List.forall_mem_append.2 ⟨hn, hm⟩

/-- More tokens around a stretch do no harm. -/
theorem Marked.mono {ts us : List Token} {ns : List Node} (h : Marked ts ns) (hs : ts <:+: us) :
    Marked us ns := by
  intro n hn
  obtain ⟨t, ht, hp, hm⟩ := h n hn
  refine ⟨t, hs.subset ht, hp, ?_⟩
  cases n with
  | expr e => exact hm
  | read names pos =>
    obtain ⟨hk, c, ns, hc, hd, hi⟩ := hm
    exact ⟨hk, c, ns, hc, hd, hi.trans hs⟩

theorem Marked.after {ts : List Token} {ns : List Node} (h : Marked ts ns) (us : List Token) :
    Marked (us ++ ts) ns :=
  h.mono (List.suffix_append us ts).isInfix

theorem Marked.before {ts : List Token} {ns : List Node} (h : Marked ts ns) (us : List Token) :
    Marked (ts ++ us) ns :=
  h.mono (List.prefix_append ts us).isInfix

theorem Marked.cons {ts : List Token} {ns : List Node} (h : Marked ts ns) (t : Token) :
    Marked (t :: ts) ns :=
  h.mono (List.suffix_cons t ts).isInfix

/-- An expression is marked when its own token is there and those of the ones inside
    it are. -/
theorem Marked.expr {ts : List Token} {ns : List Node} {e : Expr} {t : Token} (ht : t ∈ ts)
    (hp : t.pos = e.pos) (hk : e.MarkedBy t.kind) (h : Marked ts ns) :
    Marked ts (.expr e :: ns) :=
  List.forall_mem_cons.2 ⟨⟨t, ht, hp, hk⟩, h⟩

/-! ### Expressions -/

theorem Marked.binary {ts us : List Token} {t : Token} {op : BinaryOp} {e d : Expr}
    (he : Marked ts e.nodes) (hk : t.kind = op.token) (hd : Marked us d.nodes) :
    Marked (ts ++ t :: us) (Expr.binary op e d t.pos).nodes := by
  refine .expr (List.mem_append_right _ List.mem_cons_self) rfl hk ?_
  exact (he.before _).append ((hd.cons t).after ts)

/-- All expressions of a derivation are marked. -/
theorem Rule.Derives.nodes_marked {r : Rule} {ts : List Token} {e : Expr} (h : r.Derives ts e) :
    Marked ts e.nodes := by
  induction h with
  | literal hk => exact .expr List.mem_cons_self rfl ⟨_, hk⟩ (.nil _)
  | name hk => exact .expr List.mem_cons_self rfl hk (.nil _)
  | parentheses _ _ _ ih => exact (ih.before _).cons _
  | unary hk _ ih => exact .expr List.mem_cons_self rfl hk (ih.cons _)
  | operation _ _ hk _ ihl ihr => exact ihl.binary hk ihr
  | @assign t ts us s pos e _ _ _ iht ihv =>
    -- The token of an assignment is that of its target.
    obtain ⟨name, hn, hp, hm⟩ := iht _ List.mem_cons_self
    exact .expr (List.mem_append_left _ hn) hp hm ((ihv.cons t).after ts)
  | next _ hk _ ihl ihr => exact ihl.binary hk ihr
  | last _ hk _ ihl ihr => exact ihl.binary hk ihr
  | primary _ ih | operand _ ih | value _ ih | first _ ih | single _ ih => exact ih

/-! ### Statements -/

theorem TypedDerives.nodes_marked {ts : List Token} {s : Statement} (h : TypedDerives ts s) :
    Marked ts s.nodes := by
  cases h with
  | bare => exact .nil _
  | initialised _ _ _ he => exact ((he.nodes_marked.cons _).after _).cons _

theorem ClauseDerives.nodes_marked {ts : List Token} {s : Statement} (h : ClauseDerives ts s) :
    Marked ts s.nodes := by
  cases h with
  | declared _ hs => exact hs.nodes_marked.cons _
  | computed he => exact he.nodes_marked

theorem ClausesDerive.nodes_marked {ts : List Token} {initial step : Statement}
    {condition : Expr} (h : ClausesDerive ts initial condition step) :
    Marked ts initial.nodes ∧ Marked ts condition.nodes ∧ Marked ts step.nodes := by
  cases h with
  | mk hi _ hc _ hs =>
    refine ⟨hi.nodes_marked.before _, ?_, ?_⟩
    · exact ((hc.nodes_marked.before _).cons _).after _
    · exact (((hs.nodes_marked.cons _).after _).cons _).after _

/-- The nodes of a phrase. -/
def Phrase.nodes : Phrase → List Node
  | .declaration s => s.nodes
  | .statement s => s.nodes
  | .choice s _ => s.nodes
  | .block b => b.nodes
  | .declarations ss => Statement.nodesAll ss

/-- All nodes of a derivation are marked. -/
theorem Phrase.Derives.nodes_marked {p : Phrase} {ts : List Token} (h : p.Derives ts) :
    Marked ts p.nodes := by
  induction h with
  | announced _ hs => exact hs.nodes_marked.cons _
  | plain _ ih => exact ih
  | print _ _ he => exact (he.nodes_marked.cons _).cons _
  | read hk hc hn =>
    refine List.forall_mem_cons.2 ⟨⟨_, List.mem_cons_self, rfl, ?_⟩, Marked.nil _⟩
    exact ⟨hk, _, _, hc, hn, List.infix_rfl⟩
  | typed hs => exact hs.nodes_marked
  | choose _ _ ih => exact ih.cons _
  | loop _ hcs _ ih =>
    obtain ⟨hi, hc, hs⟩ := hcs.nodes_marked
    refine Marked.cons ((hi.before _).append ((hc.before _).append ?_)) _
    exact (hs.before _).append (ih.after _)
  | loopInParentheses _ _ hcs _ _ ih =>
    obtain ⟨hi, hc, hs⟩ := hcs.nodes_marked
    refine Marked.cons (Marked.cons ((hi.before _).append ((hc.before _).append ?_)) _) _
    exact (hs.before _).append ((ih.cons _).after _)
  | nested _ ih => exact ih
  | compute he => exact he.nodes_marked
  | only he _ ih => exact (he.nodes_marked.before _).append ((ih.after _).append (.nil _))
  | otherwise he _ _ _ ih ih' =>
    refine (he.nodes_marked.before _).append (Marked.after (.append ?_ ?_) _)
    · exact ih.before _
    · exact (ih'.cons _).after _
  | again he _ _ _ ih ih' =>
    refine (he.nodes_marked.before _).append (Marked.after (.append ?_ ?_) _)
    · exact ih.before _
    · exact ((ih'.cons _).after _).append (.nil _)
  | braces _ _ _ ih => exact (ih.before _).cons _
  | marked _ _ _ _ ih => exact ((ih.before _).cons _).cons _
  | done => exact .nil _
  | more _ _ ih ih' => exact (ih.before _).append (ih'.after _)

/-! ### Programs -/

/-- Every statement is marked by the tokens of its own stretch. -/
theorem Statement.nodes_marked {ss : List Statement} {parts : List (List Token)}
    (h : List.Forall₂ (fun s part => Phrase.Derives (.declaration s) part) ss parts) :
    Marked parts.flatten (Statement.nodesAll ss) := by
  induction h with
  | nil => exact .nil _
  | cons hd _ ih => exact (hd.nodes_marked.before _).append (ih.after _)

/-- The tokens of a program that is read are those of its statements, with some around
    them. -/
theorem Program.parts_of_parse {tokens : List Token} {program : Program}
    (h : Program.parse tokens = .ok program) :
    ∃ start rest, ∃ parts : List (List Token), tokens = start :: (parts.flatten ++ rest) ∧
      List.Forall₂ (fun s part => Phrase.Derives (.declaration s) part) program parts := by
  rw [Program.parse] at h
  split at h
  · rename_i statements rest hp
    obtain rfl := Except.ok.inj h
    rw [Parse.program, Parse.bind_eq_ok] at hp
    obtain ⟨_, _, hb, hp⟩ := hp
    obtain ⟨start, rfl, -⟩ := Parse.beginning_eq_ok hb
    rw [Parse.bind_of_ok (Parse.get_eq_ok.2 ⟨rfl, rfl⟩), Parse.bind_eq_ok] at hp
    obtain ⟨body, _, hbody, hp⟩ := hp
    obtain ⟨_, rfl, parts, rfl, hparts⟩ := Parse.bodyWithin_reads _ hbody
    rw [Parse.bind_eq_ok] at hp
    obtain ⟨_, _, _, hp⟩ := hp
    obtain ⟨rfl, -⟩ := Parse.pure_eq_ok.1 hp
    exact ⟨start, _, parts, rfl, hparts⟩
  · cases h

/-- All nodes of a program that is read are marked. -/
theorem Program.nodes_marked {tokens : List Token} {program : Program}
    (h : Program.parse tokens = .ok program) : Marked tokens program.nodes := by
  obtain ⟨start, rest, parts, rfl, hparts⟩ := Program.parts_of_parse h
  exact ((Statement.nodes_marked hparts).before _).cons start

end Tudlo
