import StructuredFlow.Host

/-
  The standard host functions: a log, a counter, and small functions that give back, raise or
  refuse what they are called with. Their world is the log and the count.
-/

namespace StructuredFlow

/-- The lines logged since they were last taken, and how often `next` was called. -/
structure Journal where
  lines : Array String
  count : Int32
deriving Repr, Inhabited

namespace Journal

def empty : Journal :=
  ⟨#[], 0⟩

/-- Takes the lines out of the journal. -/
def take (j : Journal) : List String × Journal :=
  (j.lines.toList, { j with lines := #[] })

end Journal

namespace Host.Standard

abbrev Call := EStateM EvalError Journal Value

/-- Logs the arguments in their written form, with commas between them. -/
def log (args : List Value) : Call := do
  modify fun j => { j with lines := j.lines.push (", ".intercalate (args.map Value.render)) }
  return .void

/-- Counts the calls, from one. -/
def next (_ : List Value) : Call := do
  modify fun j => { j with count := j.count + 1 }
  return .int (← get).count

/-- Demands exactly one argument. -/
def single (f : Value → Call) : List Value → Call
  | [v] => f v
  | args => throw (.arityMismatch 1 args.length)

def twice : List Value → Call
  | [.int i] => return .int (i * 2)
  | _ => throw (.typeError (.host "twice expects an int"))

/-- The field of an object at an index. -/
def field : List Value → Call
  | [.object _ _ fields, .int i] =>
    match if i < 0 then none else fields[i.toInt.toNat]? with
    | some v => return v
    | none => throw (.typeError (.host "no such field"))
  | _ => throw (.typeError (.host "no such field"))

end Host.Standard

/-- The host with all standard functions. -/
def Host.standard : Host Journal where
  functions :=
    [("log", Standard.log),
     ("next", Standard.next),
     ("id", Standard.single fun v => return v),
     ("raise", Standard.single fun v => throw (.thrown v)),
     ("uncaught", Standard.single fun v => throw (.uncaught v)),
     ("fail", fun _ => throw (.typeError (.host "host failure"))),
     ("twice", Standard.twice),
     ("field", Standard.field)]

end StructuredFlow
