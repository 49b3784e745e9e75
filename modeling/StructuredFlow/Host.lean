import StructuredFlow.EvalError

/-
  Functions that a program can call but that live outside of it. They act on a world that the
  program does not see; the machine that runs the program hands the world from call to call.
-/

namespace StructuredFlow

abbrev HostFunction (ω : Type) := List Value → EStateM EvalError ω Value

/-- The registered functions, one for a name, in the order in which the names came. -/
structure Host (ω : Type) where
  functions : List (String × HostFunction ω)

namespace Host

variable {ω : Type}

def empty : Host ω :=
  ⟨[]⟩

def find? (h : Host ω) (name : String) : Option (HostFunction ω) :=
  h.functions.lookup name

def contains (h : Host ω) (name : String) : Bool :=
  (h.find? name).isSome

/-- Adds a function, or replaces the one that had the name. -/
def register (h : Host ω) (name : String) (f : HostFunction ω) : Host ω :=
  if h.contains name then
    ⟨h.functions.map fun e => if e.1 = name then (name, f) else e⟩
  else
    ⟨h.functions ++ [(name, f)]⟩

/-- Adds a function that gives one value whatever it is called with. -/
def registerConstant (h : Host ω) (name : String) (v : Value) : Host ω :=
  h.register name fun _ => pure v

/-- The result of a call: what the function gives, or that there is no such function. -/
def call (h : Host ω) (name : String) (args : List Value) : EStateM EvalError ω Value :=
  match h.find? name with
  | some f => f args
  | none => throw (.unknownFunction name)

/-- The registered names in the order of their characters. -/
def names (h : Host ω) : List String :=
  (h.functions.map Prod.fst).mergeSort fun a b => !(b < a)

/-- A line that lists the registered names. -/
def describe (h : Host ω) : String :=
  "HostFunctions \x7b functions: [" ++ ", ".intercalate (h.names.map Text.quote) ++ "] \x7d"

@[simp] theorem find?_empty (name : String) : (empty : Host ω).find? name = none := rfl

theorem lookup_replace (fs : List (String × HostFunction ω)) (name : String) (f : HostFunction ω)
    (name' : String) :
    (fs.map fun e => if e.1 = name then (name, f) else e).lookup name' =
      if name' = name then (fs.lookup name).map fun _ => f else fs.lookup name' := by
  induction fs with
  | nil => simp
  | cons e fs ih =>
    obtain ⟨k, g⟩ := e
    by_cases hk : k = name
    · by_cases h : name' = name <;> simp [List.lookup_cons, hk, h, ih, beq_false_of_ne]
    · by_cases h : name' = k
      · subst h; simp [hk]
      · by_cases h' : name' = name
        · subst h'; simp [List.lookup_cons, hk, beq_false_of_ne h, ih]
        · simp [List.lookup_cons, hk, beq_false_of_ne h, ih, h']

/-- A registered function is found under its name, and the others as before. -/
theorem find?_register (h : Host ω) (name : String) (f : HostFunction ω) (name' : String) :
    (h.register name f).find? name' = if name' = name then some f else h.find? name' := by
  unfold register contains find?
  split
  next hc =>
    rw [lookup_replace]
    obtain ⟨g, hg⟩ := Option.isSome_iff_exists.mp hc
    by_cases hn : name' = name <;> simp [hn, hg]
  next hc =>
    have hc : h.functions.lookup name = none := Option.not_isSome_iff_eq_none.mp hc
    rw [List.lookup_append]
    by_cases hn : name' = name
    · simp [hn, hc]
    · simp [hn, List.lookup_cons, beq_false_of_ne hn]

end Host

end StructuredFlow
