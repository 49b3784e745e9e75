import StructuredFlow.Host
import StructuredFlow.Value.Heap

/-
  The machine that runs programs: variables, heap, host, the exceptions being handled, the log of
  what was disposed of, and the count of steps with its limit.
-/

namespace StructuredFlow

/-- The values of the variables, one for a number. -/
structure Env where
  entries : List (SymbolId × Value)
deriving Repr, Inhabited

namespace Env

def empty : Env :=
  ⟨[]⟩

def get? (env : Env) (id : SymbolId) : Option Value :=
  env.entries.lookup id

def contains (env : Env) (id : SymbolId) : Bool :=
  (env.get? id).isSome

/-- Replaces the entry of the number, or adds one at the end. -/
def insertEntry (id : SymbolId) (v : Value) : List (SymbolId × Value) → List (SymbolId × Value)
  | [] => [(id, v)]
  | e :: rest => if e.1 = id then (id, v) :: rest else e :: insertEntry id v rest

def insert (env : Env) (id : SymbolId) (v : Value) : Env :=
  ⟨insertEntry id v env.entries⟩

/-- Gives a variable the zero of its type, unless it has a value. -/
def declare (env : Env) (s : Symbol) : Env :=
  if env.contains s.id then env else env.insert s.id (Value.zero s.ty)

theorem lookup_insertEntry (id : SymbolId) (v : Value) (es : List (SymbolId × Value))
    (id' : SymbolId) :
    (insertEntry id v es).lookup id' = if id' = id then some v else es.lookup id' := by
  induction es with
  | nil => by_cases h : id' = id <;> simp [insertEntry, List.lookup_cons, h, beq_false_of_ne]
  | cons e es ih =>
    obtain ⟨k, w⟩ := e
    by_cases hk : k = id
    · by_cases h : id' = id <;> simp [insertEntry, List.lookup_cons, hk, h, beq_false_of_ne]
    · by_cases h : id' = k
      · simp [insertEntry, h, hk]
      · simp [insertEntry, hk, List.lookup_cons, beq_false_of_ne h, ih]

@[simp] theorem get?_empty (id : SymbolId) : empty.get? id = none := rfl

theorem get?_insert (env : Env) (id : SymbolId) (v : Value) (id' : SymbolId) :
    (env.insert id v).get? id' = if id' = id then some v else env.get? id' :=
  lookup_insertEntry id v env.entries id'

theorem get?_declare (env : Env) (s : Symbol) (id : SymbolId) :
    (env.declare s).get? id =
      if id = s.id ∧ env.get? s.id = none then some (Value.zero s.ty) else env.get? id := by
  unfold declare contains
  by_cases h : env.get? s.id = none <;> by_cases hi : id = s.id <;>
    simp_all [Option.isSome_iff_ne_none, get?_insert]

end Env

structure Machine (ω : Type) where
  env : Env
  heap : Heap
  host : Host ω
  world : ω
  handling : List Value
  disposeLog : Array String
  steps : Nat
  stepLimit : Nat

namespace Machine

variable {ω : Type}

def defaultStepLimit : Nat := 1000000

/-- A machine that has not run anything yet. -/
def new (host : Host ω) (world : ω) (stepLimit : Nat) : Machine ω where
  env := Env.empty
  heap := Heap.empty
  host := host
  world := world
  handling := []
  disposeLog := #[]
  steps := 0
  stepLimit := stepLimit

def assign (m : Machine ω) (s : Symbol) (v : Value) : Machine ω :=
  { m with env := m.env.insert s.id v }

/-- Gives each of the locals that has no value yet the zero of its type. -/
def declare (m : Machine ω) (locals : List Symbol) : Machine ω :=
  { m with env := locals.foldl Env.declare m.env }

def setCursor (m : Machine ω) (id : CursorId) (c : Cursor) : Machine ω :=
  { m with heap := m.heap.setCursor id c }

def logDisposal (m : Machine ω) (name : String) : Machine ω :=
  { m with disposeLog := m.disposeLog.push name }

/-- The exception becomes the innermost of those being handled. -/
def beginHandling (m : Machine ω) (exception : Value) : Machine ω :=
  { m with handling := exception :: m.handling }

def endHandling (m : Machine ω) : Machine ω :=
  { m with handling := m.handling.tail }

/-- A machine as a run finds it: of what went before, the heap, the host and its world remain. -/
def restart (m : Machine ω) : Machine ω :=
  { m with env := Env.empty, handling := [], disposeLog := #[], steps := 0 }

end Machine

end StructuredFlow
