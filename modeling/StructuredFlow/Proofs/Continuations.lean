import StructuredFlow.Machine.Run
import StructuredFlow.Proofs.Metering
import StructuredFlow.Proofs.Places

/-
  Continuations: an account of execution in which nothing climbs or descends. At every time there
  is a list of what is left to do. Each label has one place in the program, and so one
  continuation that depends on nothing but this place (`Node.destinations`): the statements after it,
  then what is left of the constructs around, where the body of a loop goes back to its start. A
  jump goes on with the continuation of its label, and evaluates nothing on the way.

  There are no rules for guarded regions; a program without them gives what `Artifact.Reaches`
  says.
-/

namespace StructuredFlow

variable {ω : Type}

/-- One thing that is left to do: the statements after another one, or the next round of a loop. -/
inductive Rest where
  | statements (ns : List Node)
  | again (body : Node)

/-- All that is left to do, the next thing first. -/
abbrev Continuation := List Rest

/-- What a jump gives where it lands: at a mark, the value it carries or else the default; nothing
at the end of a loop and before its next round. -/
inductive Landing where
  | marked (default : Option Constant)
  | ofLoop

def Landing.value : Landing → Option Value → Value
  | .marked default, carried => carried.getD ((default.map Value.ofConstant).getD .void)
  | .ofLoop, _ => .void

/-- Where a label leads: what is left to do there, and the locals of the blocks around, from the
outside in. -/
structure Destination where
  landing : Landing
  rest : Continuation
  locals : List Symbol

namespace Node

mutual

/-- The labels that have their places in a node, where that much is left to do after it and those
are the locals of the blocks around. -/
def destinations : Node → Continuation → List Symbol → List (LabelId × Destination)
  | label target default, k, ls => [(target.id, ⟨.marked default, k, ls⟩)]
  | block locals body, k, ls => destinationsRow body k (ls ++ locals)
  | branch _ yes no, k, ls => yes.destinations k ls ++ no.destinations k ls
  | loop body leave next, k, ls =>
    (leave.id, ⟨.ofLoop, k, ls⟩) :: (next.id, ⟨.ofLoop, .again body :: k, ls⟩) ::
      body.destinations (.again body :: k) ls
  | switch _ arms none, k, ls => destinationsArms arms k ls
  | switch _ arms (some default), k, ls => destinationsArms arms k ls ++ default.destinations k ls
  | nop, _, _ | eval _, _, _ | assign _ _, _, _ | goto _ _, _, _ | attempt _ _ _, _, _
  | throw _, _, _ | rethrow, _, _ => []

def destinationsRow : List Node → Continuation → List Symbol → List (LabelId × Destination)
  | [], _, _ => []
  | n :: rest, k, ls => n.destinations (.statements rest :: k) ls ++ destinationsRow rest k ls

def destinationsArms : List (Arm Node) → Continuation → List Symbol → List (LabelId × Destination)
  | [], _, _ => []
  | ⟨_, n⟩ :: rest, k, ls => n.destinations k ls ++ destinationsArms rest k ls

end

/-- Where a label of a program leads. -/
def destination? (program : Node) (l : LabelId) : Option Destination :=
  (program.destinations [] []).lookup l

end Node

/-! ## Execution -/

/-- Where execution stands: a node is to be started, or a value has come out; and what is left to
do after that. -/
inductive Point where
  | start (n : Node) (rest : Continuation)
  | finish (v : Value) (rest : Continuation)

namespace Point

/-- A jump goes on with the continuation of its label. What is declared around the label's place
is declared. -/
def land (program : Node) (l : LabelId) (carried : Option Value) : Eval ω Point := do
  match program.destination? l with
  | some there =>
    modify (·.declare there.locals)
    return .finish (there.landing.value carried) there.rest
  | none => throw (.escapedJump l)

/-- One step from a point to the next. -/
def advance (program : Node) : Point → Eval ω Point
  | .start .nop k => return .finish .void k
  | .start (.eval e) k => do return .finish (← e.eval) k
  | .start (.assign target value) k => do
    let v ← value.eval
    modify (·.assign target v)
    return .finish .void k
  | .start (.block locals body) k => do
    modify (·.declare locals)
    return .finish .void (.statements body :: k)
  | .start (.branch test yes no) k => do
    match ← test.eval with
    | .bool true => return .start yes k
    | .bool false => return .start no k
    | v => throw (.typeError (.test v))
  | .start (.loop body _ _) k => return .start body (.again body :: k)
  | .start (.label _ default) k => return .finish ((Landing.marked default).value none) k
  | .start (.goto target none) _ => land program target.id none
  | .start (.goto target (some e)) _ => do land program target.id (some (← e.eval))
  | .start (.switch value cases default) k => do
    match (← value.eval >>= fun v => Exec.select v cases) <|> default with
    | some body => return .start body k
    | none => return .finish .void k
  | .start (.throw e) _ => do throw (.thrown (← e.eval))
  | .start .rethrow _ => do
    match (← get).handling.head? with
    | some v => throw (.thrown v)
    | none => throw .noActiveException
  | .finish v (.statements [] :: k) => return .finish v k
  | .finish _ (.statements (n :: rest) :: k) => return .start n (.statements rest :: k)
  | .finish _ (.again body :: k) => return .start body (.again body :: k)
  | .start (.attempt body handlers cleanup) k => return .start (.attempt body handlers cleanup) k
  | .finish v [] => return .finish v []

/-- Something is left to do. -/
def running : Point → Bool
  | .finish _ [] => false
  | _ => true

/-- A point with the machine there, or the cause that execution has stopped for. -/
abbrev State (ω : Type) := EStateM.Result EvalError (Machine ω) Point

/-- So many steps lead from a state to another. -/
inductive Advances (program : Node) : State ω → Nat → State ω → Prop
  | refl {s} : Advances program s 0 s
  | step {p m i s} (running : p.running = true) (later : Advances program (p.advance program m) i s) :
      Advances program (.ok p m) (i + 1) s

/-- What has come out, if execution has ended. -/
def conclusion? : State ω → Option (EStateM.Result EvalError (Machine ω) Value)
  | .ok (.finish v []) m => some (.ok v m)
  | .ok _ _ => none
  | .error (.thrown v) m => some (.error (.uncaught v) m)
  | .error e m => some (.error e m)

end Point

/-- What the program gives by this account, apart from the meter. -/
inductive Artifact.Reaches (a : Artifact) (args : List Value) (m : Machine ω) :
    EStateM.Result EvalError (Machine ω) Value → Prop
  | refused (length : args.length ≠ a.params.length) :
      Reaches a args m (.error (.arityMismatch a.params.length args.length) (m.metered 0 0))
  | ended {i s r} (length : args.length = a.params.length)
      (walk : Point.Advances a.body (.ok (.start a.body []) (m.prepare a.params args)) i s)
      (conclusion : Point.conclusion? s = some r) :
      Reaches a args m (Outcome.mapState (·.metered 0 0) r)

namespace Point

variable {program : Node} {s s' f : State ω} {i j : Nat}

theorem Advances.trans (h : Advances program s i s') (h' : Advances program s' j f) :
    Advances program s (i + j) f := by
  induction h with
  | refl => exact (Nat.zero_add j).symm ▸ h'
  | @step p m i _ running _ ih =>
    have hsum : i + 1 + j = i + j + 1 := by omega
    exact hsum ▸ .step running (ih h')

/-- Steps to the end go through every state on the way. -/
theorem Advances.split (h : Advances program s i s') (h' : Advances program s j f)
    (hf : (conclusion? f).isSome) : ∃ j', j = i + j' ∧ Advances program s' j' f := by
  induction h generalizing j with
  | refl => exact ⟨j, (Nat.zero_add j).symm, h'⟩
  | @step p m i _ running _ ih =>
    cases h' with
    | refl =>
      cases p with
      | start n k => cases hf
      | finish v k =>
        cases k with
        | nil => cases running
        | cons rest k => cases hf
    | step _ later =>
      obtain ⟨j', rfl, hj'⟩ := ih later
      exact ⟨j', by omega, hj'⟩

end Point

end StructuredFlow
