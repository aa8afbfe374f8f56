import Tudlo.ScalarType

/-!
# Environments

The variables of a running program live in *frames*. There is always at least
one, the outermost frame, and each block and loop adds one while it runs. A
declaration puts a variable into the innermost frame, where it replaces a
variable of the same name and hides those of the frames around it. A name is
looked up from the innermost frame outwards, and an assignment changes the
variable that the look-up finds, not its declared type.

The innermost frame is kept apart from the others, so an environment without
frames cannot be written down.

* `Environment.find?`, `Environment.define`, `Environment.assign?`: the
  variables;
* `Environment.push`, `Environment.pop`: the frames. Popping the outermost
  frame does nothing.
-/

namespace Tudlo

/-- A variable. -/
structure Variable where
  /-- The type that the variable was declared with. -/
  type : ScalarType
  /-- The value that the variable has now. -/
  value : Value
  deriving DecidableEq

/-- The variables declared in one place, each name at most once. -/
structure Frame where
  /-- The names and their variables. -/
  bindings : List (String × Variable) := []
  deriving DecidableEq

namespace Frame

/-- The variable of the given name. -/
def find? (f : Frame) (name : String) : Option Variable :=
  f.bindings.lookup name

/-- The bindings `bs` with `v` in the place of the variable of the given name,
    or at the end if there is none. -/
def replace (name : String) (v : Variable) : List (String × Variable) → List (String × Variable)
  | [] => [(name, v)]
  | b :: bs => if name == b.1 then (name, v) :: bs else b :: replace name v bs

/-- The frame with the variable `v` of the given name. -/
def insert (f : Frame) (name : String) (v : Variable) : Frame :=
  ⟨replace name v f.bindings⟩

/-- The frame where the variable of the given name has a new value, if there
    is such a variable. -/
def assign? (f : Frame) (name : String) (value : Value) : Option Frame :=
  (f.find? name).map fun v => f.insert name { v with value }

/-- After an insertion the name has the inserted variable. -/
@[simp] theorem find?_insert_self (f : Frame) (name : String) (v : Variable) :
    (f.insert name v).find? name = some v := by
  obtain ⟨bs⟩ := f
  simp only [insert, find?]
  induction bs with
  | nil => simp [replace]
  | cons b bs ih =>
    obtain ⟨n, w⟩ := b
    cases h : name == n <;> simp [replace, h, List.lookup_cons, ih]

/-- An insertion does not change the variables of other names. -/
theorem find?_insert_of_ne (f : Frame) {name other : String} (v : Variable) (h : other ≠ name) :
    (f.insert name v).find? other = f.find? other := by
  obtain ⟨bs⟩ := f
  have ho : (other == name) = false := by simpa using h
  simp only [insert, find?]
  induction bs with
  | nil => simp [replace, List.lookup_cons, ho]
  | cons b bs ih =>
    obtain ⟨n, w⟩ := b
    by_cases hn : name = n
    · subst hn
      simp [replace, List.lookup_cons, ho]
    · simp [replace, hn, List.lookup_cons, ih]

end Frame

/-- An environment: the innermost frame, and those around it from the inside
    out. -/
structure Environment where
  /-- The innermost frame. -/
  inner : Frame := {}
  /-- The frames around it, the nearest first. -/
  outer : List Frame := []
  deriving DecidableEq

namespace Environment

/-- All frames, the innermost first. -/
def frames (env : Environment) : List Frame :=
  env.inner :: env.outer

/-- The number of frames. -/
def depth (env : Environment) : Nat :=
  env.frames.length

/-- The environment with one more frame inside. -/
def push (env : Environment) : Environment :=
  ⟨{}, env.frames⟩

/-- The environment without its innermost frame, unless that is the only
    one. -/
def pop (env : Environment) : Environment :=
  match env.outer with
  | [] => env
  | f :: fs => ⟨f, fs⟩

/-- The variable that a name stands for. -/
def find? (env : Environment) (name : String) : Option Variable :=
  env.frames.findSome? fun f => f.find? name

/-- The environment with a variable declared in the innermost frame. -/
def define (env : Environment) (name : String) (v : Variable) : Environment :=
  { env with inner := env.inner.insert name v }

/-- The frames where the first one that has a variable of the given name has a
    new value for it. -/
def assignIn? (name : String) (value : Value) : List Frame → Option (List Frame)
  | [] => none
  | f :: fs =>
    match f.assign? name value with
    | some g => some (g :: fs)
    | none => (assignIn? name value fs).map (f :: ·)

/-- The environment where the variable that a name stands for has a new
    value. -/
def assign? (env : Environment) (name : String) (value : Value) : Option Environment :=
  match env.inner.assign? name value with
  | some f => some { env with inner := f }
  | none => (assignIn? name value env.outer).map fun fs => { env with outer := fs }

/-! ### First facts -/

@[simp] theorem pop_push (env : Environment) : env.push.pop = env := rfl

@[simp] theorem depth_push (env : Environment) : env.push.depth = env.depth + 1 := rfl

@[simp] theorem depth_define (env : Environment) (name : String) (v : Variable) :
    (env.define name v).depth = env.depth := rfl

/-- A new frame hides nothing. -/
@[simp] theorem find?_push (env : Environment) (name : String) :
    env.push.find? name = env.find? name := rfl

/-- A declared name stands for the declared variable. -/
@[simp] theorem find?_define_self (env : Environment) (name : String) (v : Variable) :
    (env.define name v).find? name = some v := by
  simp [find?, define, frames]

/-- A declaration does not change what other names stand for. -/
theorem find?_define_of_ne (env : Environment) {name other : String} (v : Variable)
    (h : other ≠ name) : (env.define name v).find? other = env.find? other := by
  simp [find?, define, frames, List.findSome?_cons, Frame.find?_insert_of_ne _ v h]

end Environment

end Tudlo
