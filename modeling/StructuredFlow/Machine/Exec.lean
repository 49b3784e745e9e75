import StructuredFlow.Machine.Eval
import StructuredFlow.Node

/-
  Execution of a tree. A node ends normally, with a jump to a label, or with an exception. A jump
  climbs to the first node that contains the label's place; there execution goes down again,
  seeking the place, and nothing on the way down is evaluated. Each node that is started counts as
  a step, also on the way down, so the step limit bounds every run.

  `execWithin` takes a measure of fuel beside the step count. Fuel is only there to make the
  recursion evident: a step is counted before each use of it, so with one more than the steps that
  are left, as `exec` gives, the limit is met first.
-/

namespace StructuredFlow

/-- How a node ends. A jump carries the value that its label takes along, if any. -/
inductive Flow where
  | normal (value : Value)
  | jump (target : LabelId) (value : Option Value)
  | throw (exception : Value)
deriving Repr, Inhabited

/-- A jump on its way down to the place of its label. -/
structure Descent where
  target : LabelId
  value : Option Value
deriving Repr, Inhabited

/-- Why execution stops short of a flow: for a cause, or because the fuel is used up. -/
inductive Halt where
  | failed (e : EvalError)
  | outOfFuel
deriving Repr, Inhabited

abbrev Exec (ω : Type) := EStateM Halt (Machine ω)

/-- Runs a node, from its start or in search of a place in it. -/
abbrev Runner (ω : Type) := Node → Option Descent → Exec ω Flow

namespace Exec

variable {ω : Type}

/-- Execution stops for a cause. -/
def fail {α : Type} (e : EvalError) : Exec ω α :=
  throw (.failed e)

/-- Execution stops because the fuel is used up. -/
def exhausted {α : Type} : Exec ω α :=
  throw .outOfFuel

/-- Counts a step, unless the limit is reached. -/
def tick : Exec ω Unit := fun m =>
  let m := { m with steps := m.steps + 1 }
  if m.stepLimit < m.steps then .error (.failed (.stepLimit m.stepLimit)) m else .ok () m

/-- Goes on with the result of an evaluation; an exception raised there is the flow. -/
@[inline]
def evaluating {α : Type} (x : Eval ω α) (next : α → Exec ω Flow) : Exec ω Flow := fun m =>
  match x m with
  | .ok a m => next a m
  | .error (.thrown v) m => .ok (.throw v) m
  | .error e m => .error (.failed e) m

/-- The statements from the one on that has the label's place in it. -/
def placeOf (l : LabelId) (body : List Node) : List Node :=
  body.dropWhile fun n => !n.defines l

/-- The value of a label: what a jump to it carries, else its default. -/
def labelValue (target : Label) (default : Option Constant) (descent : Option Descent) : Value :=
  match descent.bind fun s => if s.target = target.id then s.value else none with
  | some v => v
  | none => (default.map Value.ofConstant).getD .void

/-- Statements in a row. A jump to a place among all of them goes on there. -/
def sequence (run : Runner ω) (body : List Node) :
    Nat → List Node → Option Descent → Value → Exec ω Flow
  | _, [], _, last => return .normal last
  | 0, _ :: _, _, _ => exhausted
  | fuel + 1, n :: rest, descent, last => do
    match ← run n descent with
    | .normal v => sequence run body fuel rest none v
    | .throw v => return .throw v
    | .jump l v =>
      match placeOf l body with
      | [] => return .jump l v
      | place => sequence run body fuel place (some ⟨l, v⟩) last

/-- Rounds of a loop: until a jump for its end or an exception, or a jump to a place outside. -/
def rounds (run : Runner ω) (body : Node) (leave next : Label) : Nat → Option Descent → Exec ω Flow
  | 0, _ => exhausted
  | fuel + 1, descent => do
    match ← run body descent with
    | .normal _ => rounds run body leave next fuel none
    | .throw v => return .throw v
    | .jump l v =>
      if l = leave.id then return .normal .void
      else if l = next.id then rounds run body leave next fuel none
      else if body.defines l then rounds run body leave next fuel (some ⟨l, v⟩)
      else return .jump l v

/-- The body of the first arm with a value equal to the discriminant; values after it are left
alone. -/
def select (discriminant : Value) : List (Arm Node) → Eval ω (Option Node)
  | [] => return none
  | a :: rest => do
    if ← selects discriminant a.values then
      return some a.body
    select discriminant rest
where
  /-- One of the values equals the discriminant. -/
  selects (discriminant : Value) : List Expr → Eval ω Bool
    | [] => return false
    | e :: rest => do
      if (← e.eval) == discriminant then
        return true
      selects discriminant rest

/-- One arm of a switch, and further ones as long as jumps lead from arm to arm. -/
def arms (run : Runner ω) (bodies : List Node) : Nat → Option Node → Option Descent → Exec ω Flow
  | _, none, _ => return .normal .void
  | 0, some _, _ => exhausted
  | fuel + 1, some body, descent => do
    match ← run body descent with
    | .jump l v =>
      match bodies.find? (·.defines l) with
      | some body => arms run bodies fuel (some body) (some ⟨l, v⟩)
      | none => return .jump l v
    | flow => return flow

/-- Runs a handler's body with the exception bound and being handled, however that ends. -/
def handle (run : Runner ω) (h : Handler Node) (exception : Value) : Exec ω Flow := fun m =>
  let m := match h.binding with
    | some s => m.assign s exception
    | none => m
  match run h.body none (m.beginHandling exception) with
  | .ok flow m => .ok flow m.endHandling
  | .error e m => .error e m.endHandling

/-- An exception goes to the first handler that is meant for it; any other flow stays as it is. -/
def dispatch (run : Runner ω) (handlers : List (Handler Node)) (flow : Flow) : Exec ω Flow :=
  match flow with
  | .throw v =>
    match handlers.find? (v.isInstanceOf ·.kind) with
    | some h => handle run h v
    | none => return flow
  | flow => return flow

/-- Runs the cleanup, if there is one, while a flow is pending. A jump or an exception that leaves
the cleanup takes the place of the pending flow. -/
def cleaning (run : Runner ω) (cleanup : Option Node) (pending : Flow) : Exec ω Flow := do
  match cleanup with
  | none => return pending
  | some n =>
    match ← run n none with
    | .normal _ => return pending
    | flow => return flow

/-- The label's place is somewhere in a guarded region. -/
def regionDefines (l : LabelId) (body : Node) (handlers : List (Handler Node))
    (cleanup : Option Node) : Bool :=
  body.defines l || cleanup.any (·.defines l) || handlers.any (·.body.defines l)

/-- Where a guarded region is entered: at its body, in its cleanup, or in a handler. -/
inductive Entrance where
  | body
  | cleanup (n : Node)
  | handler (l : LabelId)

/-- A region is entered at its body, unless the place that is sought lies elsewhere. -/
def entrance (body : Node) (cleanup : Option Node) (descent : Option Descent) : Entrance :=
  match descent with
  | none => .body
  | some s =>
    if body.defines s.target then .body
    else
      match cleanup.filter (·.defines s.target) with
      | some n => .cleanup n
      | none => .handler s.target

/-- The body of a guarded region and the handler of its exception. A jump between the parts of the
region stays inside it, and the cleanup waits; a place in the cleanup runs it as plain code, and a
place in a handler cannot be entered. -/
def region (run : Runner ω) (body : Node) (handlers : List (Handler Node)) (cleanup : Option Node) :
    Nat → Option Descent → Exec ω Flow
  | 0, _ => exhausted
  | fuel + 1, descent =>
    match entrance body cleanup descent with
    | .handler l => fail (.jumpIntoHandler l)
    | .cleanup n => run n descent
    | .body => do
      match ← dispatch run handlers (← run body descent) with
      | .jump l v =>
        if regionDefines l body handlers cleanup then
          region run body handlers cleanup fuel (some ⟨l, v⟩)
        else cleaning run cleanup (.jump l v)
      | flow => cleaning run cleanup flow

end Exec

namespace Node

variable {ω : Type}

open Exec

/-- One node, where `run` does what is to be done below it. -/
def step (run : Runner ω) (fuel : Nat) : Runner ω := fun n descent => do
  tick
  match n with
  | nop => return .normal .void
  | eval e => evaluating e.eval fun v => return .normal v
  | assign target value =>
    evaluating value.eval fun v => do
      modify (·.assign target v)
      return .normal .void
  | block locals body =>
    modify (·.declare locals)
    match descent with
    | none => sequence run body fuel body none .void
    | some s => sequence run body fuel (placeOf s.target body) descent .void
  | branch test yes no =>
    match descent with
    | some s => if yes.defines s.target then run yes descent else run no descent
    | none =>
      evaluating test.eval fun
        | .bool true => run yes none
        | .bool false => run no none
        | v => fail (.typeError (.test v))
  | loop body leave next => rounds run body leave next fuel descent
  | label target default => return .normal (labelValue target default descent)
  | goto target none => return .jump target.id none
  | goto target (some e) => evaluating e.eval fun v => return .jump target.id (some v)
  | switch value cases default =>
    let bodies := cases.map Arm.body ++ default.toList
    match descent with
    | some s => arms run bodies fuel (bodies.find? (·.defines s.target)) descent
    | none =>
      evaluating (value.eval >>= fun v => select v cases) fun selected =>
        arms run bodies fuel (selected <|> default) none
  | attempt body handlers cleanup => region run body handlers cleanup fuel descent
  | throw e => evaluating e.eval fun v => return .throw v
  | rethrow =>
    match (← get).handling.head? with
    | some v => return .throw v
    | none => fail .noActiveException

/-- Execution with a measure of fuel. -/
def execWithin : Nat → Runner ω
  | 0, _, _ => exhausted
  | fuel + 1, n, descent => step (execWithin fuel) fuel n descent

/-- Runs a node from its start to a flow, or to the cause that stops it. -/
def exec (n : Node) : Eval ω Flow := fun m =>
  match n.execWithin (m.stepLimit - m.steps + 1) none m with
  | .ok flow m => .ok flow m
  | .error (.failed e) m => .error e m
  | .error .outOfFuel m => .error (.stepLimit m.stepLimit) m

end Node

end StructuredFlow
