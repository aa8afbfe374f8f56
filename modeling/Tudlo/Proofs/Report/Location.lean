import Tudlo.Proofs.Grammar.Location
import Tudlo.Proofs.Grammar.Marks
import Tudlo.Proofs.Token.Refusal

/-!
# Failures are placed where they belong

When a source text cannot be run to its end, the position of the failure is one in the
text, and it is the right one (`Failure.Placed`):

* a text that is not made of tokens is refused at the character where it cannot go on;
* an error of reading is at a token, which can be the one for the end;
* a fault is at a token of the sort that its cause asks for (`FaultCause.Fits`).

The last one puts together what is blamed for a fault (`Tudlo.Proofs.Machine.Blame`)
and which token that is (`Tudlo.Proofs.Grammar.Marks`).
-/

namespace Tudlo

/-! ### Tokens that explain a fault -/

/-- The token is the operator of an operation of the program on two operands. -/
def Token.IsBinary (t : Token) (op : BinaryOp) (program : Program) : Prop :=
  t.kind = op.token ∧ ∃ l r, Node.expr (.binary op l r t.pos) ∈ program.nodes

/-- The token is the operator in front of an operand of the program. -/
def Token.IsUnary (t : Token) (op : UnaryOp) (program : Program) : Prop :=
  t.kind = op.token ∧ ∃ e, Node.expr (.unary op e t.pos) ∈ program.nodes

/-- The token is of the sort that faults with the cause are blamed on. -/
def FaultCause.Fits (program : Program) (tokens : List Token) (t : Token) : FaultCause → Prop
  | .unknownVariable name =>
    t.kind = .name name ∧ t.lexeme = name ∨ ∃ names, t.IsRead names tokens ∧ name ∈ names
  | .divisionByZero => t.IsBinary .div program ∨ t.IsBinary .rem program
  | .overflow =>
    (∃ op, op.family = .arithmetic ∧ t.IsBinary op program) ∨ t.IsUnary .negate program
  | .kindClash (.arithmetic op _ _) => op.family = .arithmetic ∧ t.IsBinary op program
  | .kindClash (.ordering op _ _) => op.orders = true ∧ t.IsBinary op program
  | .kindClash (.outside _ _) => False
  | .numberExpected _ => t.IsUnary .negate program ∨ t.IsUnary .plus program
  | .precisionLoss =>
    ∃ op, (op.family = .arithmetic ∨ op.orders = true) ∧ t.IsBinary op program
  | .inputMissing => ∃ names, t.IsRead names tokens
  | .fieldCount expected _ => ∃ names, t.IsRead names tokens ∧ expected = names.length
  | .fieldMalformed name _ _ => ∃ names, t.IsRead names tokens ∧ name ∈ names

section Fits

variable {program : Program} {tokens : List Token} {t : Token} {cause : FaultCause}

theorem Token.IsBinary.fits {op : BinaryOp} (h : t.IsBinary op program) (hc : op.CanFail cause) :
    cause.Fits program tokens t := by
  cases cause with
  | divisionByZero =>
    rcases hc with rfl | rfl
    · exact .inl h
    · exact .inr h
  | overflow => exact .inl ⟨op, hc, h⟩
  | kindClash clash =>
    cases clash with
    | arithmetic op' _ _ =>
      obtain ⟨rfl, hf⟩ := hc
      exact ⟨hf, h⟩
    | ordering op' _ _ =>
      obtain ⟨rfl, ho⟩ := hc
      exact ⟨ho, h⟩
    | outside _ _ => exact hc
  | precisionLoss => exact ⟨op, hc, h⟩
  | _ => exact hc.elim

theorem Token.IsUnary.fits {op : UnaryOp} (h : t.IsUnary op program) (hc : op.CanFail cause) :
    cause.Fits program tokens t := by
  cases cause with
  | overflow =>
    obtain rfl : op = .negate := hc
    exact .inr h
  | numberExpected _ =>
    rcases hc with rfl | rfl
    · exact .inl h
    · exact .inr h
  | _ => exact hc.elim

theorem Token.IsRead.fits {names : List String} (h : t.IsRead names tokens)
    (hc : cause.OfReading names) : cause.Fits program tokens t := by
  cases cause with
  | unknownVariable name => exact .inr ⟨names, h, hc⟩
  | inputMissing => exact ⟨names, h⟩
  | fieldCount expected found => exact ⟨names, h, hc⟩
  | fieldMalformed name type field => exact ⟨names, h, hc⟩
  | _ => exact hc.elim

/-- The token of a node is of the right sort for all causes that the node can have. -/
theorem Node.fits {n : Node} (hn : n ∈ program.nodes) (hp : t.pos = n.pos)
    (hm : n.MarkedBy t tokens) (hl : ∀ name, t.kind = .name name → t.lexeme = name)
    (hc : n.CanFail cause) : cause.Fits program tokens t := by
  cases n with
  | read names pos => exact Token.IsRead.fits hm hc
  | expr e =>
    cases e with
    | literal value pos => exact hc.elim
    | var name pos =>
      obtain rfl : cause = .unknownVariable name := hc
      exact .inl ⟨hm, hl name hm⟩
    | assign name value pos =>
      obtain rfl : cause = .unknownVariable name := hc
      exact .inl ⟨hm, hl name hm⟩
    | unary op e pos =>
      obtain rfl : t.pos = pos := hp
      exact Token.IsUnary.fits ⟨hm, e, hn⟩ hc
    | binary op l r pos =>
      obtain rfl : t.pos = pos := hp
      exact Token.IsBinary.fits ⟨hm, l, r, hn⟩ hc

end Fits

/-! ### Tokens of a source text -/

theorem Position.following_ne_zero (cs : List Char) :
    (following cs).line ≠ 0 ∧ (following cs).column ≠ 0 := by
  simp [following]

/-- A token of a text is at a position of the text, and if it is a name, then the
    name is what is written there. -/
theorem Layout.of_mem {before text : List Char} {ts : List Token} (h : Layout before text ts)
    {t : Token} (ht : t ∈ ts) :
    (∃ cs, t.pos = .following cs) ∧ ∀ name, t.kind = .name name → t.lexeme = name := by
  induction h with
  | ending hg =>
    obtain rfl := List.mem_singleton.1 ht
    exact ⟨⟨_, rfl⟩, fun name hk => by cases hk⟩
  | token hg hs _ ih =>
    rcases List.mem_cons.1 ht with rfl | ht
    · refine ⟨⟨_, rfl⟩, ?_⟩
      rintro name rfl
      rw [hs.text_of_name, String.ofList_toList]
    · exact ih ht

/-- The tokens of a text end with the one for its end. -/
theorem closed_of_scan {source : String} {tokens : List Token} (h : scan source = .ok tokens) :
    Parse.Closed tokens ∧ tokens ≠ [] := by
  obtain ⟨ls, -, -, rfl⟩ := pieces_of_scan h
  have hl := Lexeme.getLast?_tokens .start ls
  refine ⟨fun t ht => ?_, fun hn => ?_⟩
  · rw [hl] at ht
    obtain rfl := Option.some.inj ht
    rfl
  · rw [hn] at hl
    cases hl

/-! ### Failures -/

/-- The position of a failure. -/
def Failure.pos : Failure → Position
  | .lexical e => e.pos
  | .grammatical e => e.pos
  | .runtime f _ => f.pos

/-- The failure is at a place of the source text that explains it. -/
def Failure.Placed (source : String) : Failure → Prop
  | .lexical e => ∃ before after ts, source.toList = before ++ after ∧ Layout [] before ts ∧
      e.pos = .following before ∧ e.cause.Explains after
  | .grammatical e => ∃ tokens, scan source = .ok tokens ∧ ∃ t ∈ tokens, t.pos = e.pos
  | .runtime f _ => ∃ tokens program, scan source = .ok tokens ∧
      Program.parse tokens = .ok program ∧
      ∃ t ∈ tokens, t.pos = f.pos ∧ f.cause.Fits program tokens t

/-- A text that fails does so in one of the three stages. -/
theorem Report.run_eq_error {limit : Nat} {source : String} {input : List String}
    {failure : Failure}
    (h : (Report.run limit source input).map Report.result = some (.error failure)) :
    (∃ e, scan source = .error e ∧ failure = .lexical e) ∨
    ∃ tokens, scan source = .ok tokens ∧
      ((∃ e, Program.parse tokens = .error e ∧ failure = .grammatical e) ∨
      ∃ program f m m', Program.parse tokens = .ok program ∧
        program.exec limit m = .error (.fault f) m' ∧ failure = .runtime f m'.output) := by
  rw [Report.run] at h
  split at h
  · rename_i e hs
    exact .inl ⟨e, hs, by simpa using h.symm⟩
  · rename_i tokens hs
    refine .inr ⟨tokens, hs, ?_⟩
    dsimp only at h
    split at h
    · rename_i e hp
      exact .inl ⟨e, hp, by simpa using h.symm⟩
    · rename_i program hp
      split at h
      · simp at h
      · rename_i f m' hx
        exact .inr ⟨program, f, _, m', hp, hx, by simpa using h.symm⟩
      · cases h

theorem Layout.ne_zero_of_mem {before text : List Char} {ts : List Token}
    (h : Layout before text ts) {t : Token} (ht : t ∈ ts) : t.pos.line ≠ 0 ∧ t.pos.column ≠ 0 := by
  obtain ⟨⟨cs, hcs⟩, -⟩ := h.of_mem ht
  rw [hcs]
  exact Position.following_ne_zero cs

/-- Every failure is inside of the text, at a place that explains it. -/
theorem Report.failure_placed {limit : Nat} {source : String} {input : List String}
    {failure : Failure}
    (h : (Report.run limit source input).map Report.result = some (.error failure)) :
    failure.pos.line ≠ 0 ∧ failure.pos.column ≠ 0 ∧ failure.Placed source := by
  rcases Report.run_eq_error h with ⟨e, hs, rfl⟩ | ⟨tokens, hs, h⟩
  · obtain ⟨before, after, ts, ht, hl, hp, hc⟩ := scan_error hs
    obtain ⟨hline, hcolumn⟩ := Position.following_ne_zero before
    rw [← hp] at hline hcolumn
    exact ⟨hline, hcolumn, before, after, ts, ht, hl, hp, hc⟩
  · obtain ⟨ls, hpieces, -, rfl⟩ := pieces_of_scan hs
    have hlayout := hpieces.layout []
    rcases h with ⟨e, hp, rfl⟩ | ⟨program, f, m, m', hp, hx, rfl⟩
    · obtain ⟨hclosed, hne⟩ := closed_of_scan hs
      obtain ⟨t, ht, hpos⟩ := Program.locates_of_parse hclosed hne hp
      obtain ⟨hline, hcolumn⟩ := hlayout.ne_zero_of_mem ht
      rw [hpos] at hline hcolumn
      exact ⟨hline, hcolumn, _, hs, t, ht, hpos⟩
    · obtain ⟨n, hn, hnf, hc⟩ := Program.blamedOn_of_exec hx
      obtain ⟨t, ht, htn, hm⟩ := Program.nodes_marked hp n hn
      have hpos : t.pos = f.pos := htn.trans hnf
      obtain ⟨hline, hcolumn⟩ := hlayout.ne_zero_of_mem ht
      rw [hpos] at hline hcolumn
      exact ⟨hline, hcolumn, _, program, hs, hp, t, ht, hpos,
        n.fits hn htn hm (hlayout.of_mem ht).2 hc⟩

/-- A program that divides by zero, between operators that have no part in it. -/
def halving : String :=
  "SUGOD\nMUGNA NUMERO x = 1\nIPAKITA: -x / (x - 1)\nKATAPUSAN"

/-- How the program fails: at its division sign. -/
def halvingFailure : Failure :=
  .runtime ⟨.divisionByZero, ⟨3, 13⟩⟩ ""

/-- The failure of the program is at a place that explains it. -/
theorem Report.failure_placed_halving :
    (Report.run 0 halving []).map Report.result = some (.error halvingFailure) ∧
      halvingFailure.pos.line ≠ 0 ∧ halvingFailure.pos.column ≠ 0 ∧
      halvingFailure.Placed halving := by
  have h : (Report.run 0 halving []).map Report.result = some (.error halvingFailure) := by
    decide +kernel
  exact ⟨h, Report.failure_placed h⟩

end Tudlo
