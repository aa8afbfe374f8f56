import Mathlib.Logic.Basic
import Tudlo.Grammar.Basic

/-!
# The steps of a rule

What the steps that rules are made of do, in both directions: from a step that
succeeded to what the tokens were (`peek_eq_ok`, `takeIf_eq_ok`, ...), and from
what the tokens are to the step that succeeds (`peek_cons`, `takeIf_of_some`,
...). Rules are taken apart and put together by these, and no proof about a
rule looks inside a step.

Two notions about whole rules are built on them:

* `Parse.Reads`: the tokens that a rule consumes are a first stretch of the
  tokens it is given, and the stretch and the result belong together;
* `Parse.NextIsNot`: what follows a stretch does not begin with a token of a
  certain sort. A rule that goes on as long as it can stops there.
-/

namespace Tudlo

namespace Parse

variable {α β : Type} {ts rest : List Token} {t : Token}

/-- The next token, if there is one, is not of the sort `sort`. -/
def NextIsNot (sort : TokenKind → Prop) (ts : List Token) : Prop :=
  ∀ t ∈ ts.head?, ¬sort t.kind

@[simp] theorem nextIsNot_nil (sort : TokenKind → Prop) : NextIsNot sort [] :=
  fun _ h => absurd h (by simp)

@[simp] theorem nextIsNot_cons {sort : TokenKind → Prop} :
    NextIsNot sort (t :: ts) ↔ ¬sort t.kind := by
  simp [NextIsNot]

/-- A token that is not of some sort is not of any narrower one. -/
theorem NextIsNot.mono {sort narrower : TokenKind → Prop} (h : NextIsNot sort ts)
    (hs : ∀ k, narrower k → sort k) : NextIsNot narrower ts :=
  fun t ht hn => h t ht (hs _ hn)

/-- What the rule consumes is a first stretch of the tokens, of which, together
    with what the rule gives, `D` holds. -/
def Reads (rule : Parse α) (D : List Token → α → Prop) : Prop :=
  ∀ ⦃ts a rest⦄, rule ts = .ok a rest → ∃ us, ts = us ++ rest ∧ D us a

/-- A rule that reads gives back no more tokens than it was given. -/
theorem Reads.length_le {rule : Parse α} {D : List Token → α → Prop} (h : Reads rule D) {a : α}
    (hr : rule ts = .ok a rest) : rest.length ≤ ts.length := by
  obtain ⟨us, rfl, _⟩ := h hr
  simp

/-! ### One step after the other -/

/-- Two steps succeed when the first one does, and then the second one. -/
theorem bind_eq_ok {x : Parse α} {f : α → Parse β} {b : β} :
    (x >>= f) ts = .ok b rest ↔ ∃ a mid, x ts = .ok a mid ∧ f a mid = .ok b rest := by
  show EStateM.bind x f ts = _ ↔ _
  rw [EStateM.bind]
  cases x ts with
  | ok a mid =>
    refine ⟨fun h => ⟨a, mid, rfl, h⟩, ?_⟩
    rintro ⟨a', mid', hx, h⟩
    obtain ⟨rfl, rfl⟩ := EStateM.Result.ok.inj hx
    exact h
  | error e mid => exact ⟨(fun h => nomatch h), (fun ⟨_, _, h, _⟩ => nomatch h)⟩

/-- After a step that succeeds comes the next one. -/
theorem bind_of_ok {x : Parse α} {f : α → Parse β} {a : α} {mid : List Token}
    (h : x ts = .ok a mid) : (x >>= f) ts = f a mid := by
  show EStateM.bind x f ts = _
  rw [EStateM.bind, h]

/-- After a step that fails comes nothing. -/
theorem bind_of_error {x : Parse α} {f : α → Parse β} {e : SyntaxError} {mid : List Token}
    (h : x ts = .error e mid) : (x >>= f) ts = .error e mid := by
  show EStateM.bind x f ts = _
  rw [EStateM.bind, h]

/-- Two steps fail when the first one does, or else the second one. -/
theorem bind_eq_error {x : Parse α} {f : α → Parse β} {e : SyntaxError} :
    (x >>= f) ts = .error e rest ↔
      x ts = .error e rest ∨ ∃ a mid, x ts = .ok a mid ∧ f a mid = .error e rest := by
  cases h : x ts with
  | ok a mid =>
    rw [bind_of_ok h]
    refine ⟨fun he => .inr ⟨a, mid, rfl, he⟩, ?_⟩
    rintro (h' | ⟨a', mid', h', he⟩) <;> cases h'
    exact he
  | error e' mid => simp [bind_of_error h]

theorem pure_eq_ok {a b : α} : (pure a : Parse α) ts = .ok b rest ↔ b = a ∧ rest = ts := by
  show EStateM.Result.ok a ts = _ ↔ _
  rw [EStateM.Result.ok.injEq, eq_comm, eq_comm (a := ts)]

theorem throw_ne_ok {e : SyntaxError} {a : α} : (throw e : Parse α) ts ≠ .ok a rest :=
  fun h => nomatch h

theorem get_eq_ok {us : List Token} : (get : Parse _) ts = .ok us rest ↔ us = ts ∧ rest = ts := by
  show EStateM.Result.ok ts ts = _ ↔ _
  rw [EStateM.Result.ok.injEq, eq_comm, eq_comm (a := ts)]

/-! ### Looking and consuming -/

theorem peek_cons (t : Token) (ts : List Token) : peek (t :: ts) = .ok t (t :: ts) := rfl

theorem peek_eq_ok (h : peek ts = .ok t rest) : ∃ us, ts = t :: us ∧ rest = t :: us := by
  cases ts with
  | nil => exact nomatch h
  | cons u us =>
    rw [peek_cons, EStateM.Result.ok.injEq] at h
    obtain ⟨rfl, rfl⟩ := h
    exact ⟨us, rfl, rfl⟩

theorem skip_cons (t : Token) (ts : List Token) : skip (t :: ts) = .ok () ts := rfl

theorem skip_eq_ok {u : Unit} (h : skip (t :: ts) = .ok u rest) : rest = ts := by
  rw [skip_cons, EStateM.Result.ok.injEq] at h
  exact h.2.symm

/-! ### Tokens of a certain kind -/

theorem takeIf_of_some {recognise : TokenKind → Option α} {a : α}
    (h : recognise t.kind = some a) :
    takeIf recognise (t :: ts) = .ok (some (a, t.pos)) ts := by
  rw [takeIf, bind_of_ok (get_eq_ok.2 ⟨rfl, rfl⟩)]
  dsimp only
  rw [h]
  rfl

theorem takeIf_of_none {recognise : TokenKind → Option α}
    (h : NextIsNot (fun k => recognise k ≠ none) ts) : takeIf recognise ts = .ok none ts := by
  cases ts with
  | nil => rfl
  | cons t ts =>
    rw [nextIsNot_cons, not_not] at h
    rw [takeIf, bind_of_ok (get_eq_ok.2 ⟨rfl, rfl⟩)]
    dsimp only
    rw [h]
    rfl

/-- A step that consumes a token if it can either did, or found none to
    consume. -/
theorem takeIf_eq_ok {recognise : TokenKind → Option α} {r : Option (α × Position)}
    (h : takeIf recognise ts = .ok r rest) :
    (∃ t a, ts = t :: rest ∧ recognise t.kind = some a ∧ r = some (a, t.pos)) ∨
      (r = none ∧ rest = ts ∧ NextIsNot (fun k => recognise k ≠ none) ts) := by
  by_cases hn : NextIsNot (fun k => recognise k ≠ none) ts
  · rw [takeIf_of_none hn, EStateM.Result.ok.injEq] at h
    exact .inr ⟨h.1.symm, h.2.symm, hn⟩
  · cases ts with
    | nil => exact absurd (nextIsNot_nil _) hn
    | cons t us =>
      rw [nextIsNot_cons, not_not] at hn
      obtain ⟨a, ha⟩ := Option.ne_none_iff_exists'.1 hn
      rw [takeIf_of_some ha, EStateM.Result.ok.injEq] at h
      obtain ⟨rfl, rfl⟩ := h
      exact .inl ⟨t, a, rfl, ha, rfl⟩

theorem accept_of_eq {kind : TokenKind} (h : t.kind = kind) :
    accept kind (t :: ts) = .ok (some t.pos) ts := by
  rw [accept, bind_of_ok (takeIf_of_some (a := ()) (by simp [h]))]
  rfl

theorem accept_of_ne {kind : TokenKind} (h : NextIsNot (· = kind) ts) :
    accept kind ts = .ok none ts := by
  rw [accept, bind_of_ok (takeIf_of_none (h.mono fun k hk => by simpa using hk))]
  rfl

/-- A token of the given kind was consumed, or there was none. -/
theorem accept_eq_ok {kind : TokenKind} {r : Option Position} (h : accept kind ts = .ok r rest) :
    (∃ t, ts = t :: rest ∧ t.kind = kind ∧ r = some t.pos) ∨
      (r = none ∧ rest = ts ∧ NextIsNot (· = kind) ts) := by
  by_cases hn : NextIsNot (· = kind) ts
  · rw [accept_of_ne hn, EStateM.Result.ok.injEq] at h
    exact .inr ⟨h.1.symm, h.2.symm, hn⟩
  · cases ts with
    | nil => exact absurd (nextIsNot_nil _) hn
    | cons t us =>
      rw [nextIsNot_cons, not_not] at hn
      rw [accept_of_eq hn, EStateM.Result.ok.injEq] at h
      obtain ⟨rfl, rfl⟩ := h
      exact .inl ⟨t, rfl, hn, rfl⟩

theorem expect_of_eq {kind : TokenKind} {expected : Expectation} (h : t.kind = kind) :
    expect kind expected (t :: ts) = .ok () ts := by
  rw [expect, bind_of_ok (peek_cons t ts), if_pos h, skip_cons]

theorem expect_of_ne {kind : TokenKind} {expected : Expectation} (h : t.kind ≠ kind) :
    expect kind expected (t :: ts) =
      .error ⟨.tokenExpected expected t.describe, t.pos⟩ (t :: ts) := by
  rw [expect, bind_of_ok (peek_cons t ts), if_neg h]
  rfl

theorem expect_eq_ok {kind : TokenKind} {expected : Expectation} {u : Unit}
    (h : expect kind expected ts = .ok u rest) : ∃ t, ts = t :: rest ∧ t.kind = kind := by
  rw [expect, bind_eq_ok] at h
  obtain ⟨t, mid, hp, h⟩ := h
  obtain ⟨us, rfl, rfl⟩ := peek_eq_ok hp
  split at h
  · exact ⟨t, by rw [skip_eq_ok h], ‹_›⟩
  · exact absurd h throw_ne_ok

/-! ### Names -/

theorem names_of_ne (h : ∀ s, t.kind ≠ .name s) :
    names (t :: ts) = .error ⟨.nameExpected t.describe, t.pos⟩ (t :: ts) := by
  rw [names]
  · exact fun s _ _ hk => absurd hk (h s)
  · exact fun s hk => absurd hk (h s)

/-- The last name is the one that no comma follows. -/
theorem names_of_name {c : Token} {s : String} (h : t.kind = .name s)
    (hc : c.kind ≠ .symbol .comma) : names (t :: c :: ts) = .ok [s] (c :: ts) := by
  rw [names, if_neg hc]
  exact h

/-- After a comma come more names. -/
theorem names_of_comma {c : Token} {s : String} (h : t.kind = .name s)
    (hc : c.kind = .symbol .comma) :
    names (t :: c :: ts) = (do return s :: (← (names : Parse (List String))) : Parse _) ts := by
  cases hn : names ts with
  | ok ss rest =>
    refine Eq.trans ?_ (bind_of_ok hn).symm
    simp [names, h, hc, hn]
    rfl
  | error e rest =>
    refine Eq.trans ?_ (bind_of_error hn).symm
    simp [names, h, hc, hn]

end Parse

end Tudlo
