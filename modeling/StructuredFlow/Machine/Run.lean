import StructuredFlow.Machine.Exec

/-
  The run of a whole program with its arguments. A `return` ends the body as a jump to the return
  label or, where the label's place ends the body, as the value at that place.
-/

namespace StructuredFlow

namespace Machine

variable {ω : Type}

/-- A machine before the run of a program, with the parameters set. -/
def prepare (m : Machine ω) (params : List Symbol) (args : List Value) : Machine ω :=
  (params.zip args).foldl (fun m p => m.assign p.1 p.2) m.restart

end Machine

namespace Artifact

variable {ω : Type}

/-- What a program gives when its body has ended. -/
def result (a : Artifact) : Flow → Except EvalError Value
  | .normal v => .ok v
  | .jump l v => if l = a.returnLabel.id then .ok (v.getD .void) else .error (.escapedJump l)
  | .throw v => .error (.uncaught v)

/-- Runs a program. With the wrong number of arguments nothing is run, and the machine stays as it
is. -/
def run (a : Artifact) (args : List Value) : Eval ω Value := do
  if args.length ≠ a.params.length then
    throw (.arityMismatch a.params.length args.length)
  modify (·.prepare a.params args)
  MonadExcept.ofExcept (a.result (← a.body.exec))

end Artifact

end StructuredFlow
