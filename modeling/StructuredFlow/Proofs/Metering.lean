import StructuredFlow.Proofs.Evaluation
import StructuredFlow.Proofs.Outcome

/-
  The meter of a machine is its count of steps with the limit. Evaluation neither reads nor changes
  it: with another meter an expression has the same outcome, and the meter it began with
  (`Expr.eval_blind`).
-/

namespace StructuredFlow

variable {ω : Type} {ε α β : Type}

namespace Outcome

variable {σ τ : Type}

/-- The outcome with its state changed by a function. -/
def mapState (f : σ → τ) : EStateM.Result ε σ α → EStateM.Result ε τ α
  | .ok a s => .ok a (f s)
  | .error e s => .error e (f s)

end Outcome

open Outcome

namespace Machine

/-- The machine with another count of steps and another limit. -/
def metered (m : Machine ω) (steps limit : Nat) : Machine ω :=
  { m with steps := steps, stepLimit := limit }

@[simp] theorem metered_metered (m : Machine ω) (steps limit steps' limit' : Nat) :
    (m.metered steps limit).metered steps' limit' = m.metered steps' limit' := rfl

end Machine

/-- The program neither reads nor changes the meter. -/
def Blind (x : EStateM ε (Machine ω) α) : Prop :=
  ∀ m steps limit, x (m.metered steps limit) = mapState (·.metered steps limit) (x m)

namespace Blind

theorem pure (a : α) : Blind (pure a : EStateM ε (Machine ω) α) :=
  fun _ _ _ => rfl

theorem throw (e : ε) : Blind (throw e : EStateM ε (Machine ω) α) :=
  fun _ _ _ => rfl

theorem modify {f : Machine ω → Machine ω}
    (h : ∀ m steps limit, f (m.metered steps limit) = (f m).metered steps limit) :
    Blind (modify f : EStateM ε (Machine ω) PUnit) := by
  intro m steps limit
  show EStateM.Result.ok _ _ = EStateM.Result.ok _ _
  rw [h]

theorem modifyGet {f : Machine ω → α × Machine ω}
    (h : ∀ m steps limit,
      f (m.metered steps limit) = ((f m).1, (f m).2.metered steps limit)) :
    Blind (modifyGet f : EStateM ε (Machine ω) α) := by
  intro m steps limit
  show EStateM.Result.ok _ _ = EStateM.Result.ok _ _
  rw [h]

/-- A program reads the machine without its meter. -/
theorem get {f : Machine ω → EStateM ε (Machine ω) α} (hf : ∀ m, Blind (f m))
    (h : ∀ m steps limit, f (m.metered steps limit) = f m) :
    Blind ((get : EStateM ε (Machine ω) (Machine ω)) >>= f) := by
  intro m steps limit
  rw [get_andThen, get_andThen, h]
  exact hf m m steps limit

theorem andThen {x : EStateM ε (Machine ω) α} {f : α → EStateM ε (Machine ω) β} (hx : Blind x)
    (hf : ∀ a, Blind (f a)) : Blind (x >>= f) := by
  intro m steps limit
  show EStateM.bind x f _ = mapState _ (EStateM.bind x f m)
  unfold EStateM.bind
  rw [hx]
  cases x m with
  | ok a m₁ => exact hf a m₁ steps limit
  | error e m₁ => rfl

end Blind

/-! ## Evaluation -/

namespace Eval

theorem dispose_blind (v : Value) : Blind (dispose v : Eval ω Value) := by
  have hlog : Blind (modify (·.logDisposal v.disposalName) : Eval ω PUnit) :=
    .modify fun _ _ _ => rfl
  have hend := hlog.andThen fun _ => Blind.pure Value.void
  unfold dispose
  split
  · exact .pure _
  · exact Blind.andThen (.modify fun _ _ _ => rfl) fun _ => hend
  · exact hend

theorem closed_blind : Closed (ω := ω) fun x => Blind x where
  pure := .pure
  throw := .throw
  andThen := .andThen
  newObject _ _ := .modifyGet fun _ _ _ => rfl
  newIterator _ := .modifyGet fun _ _ _ => rfl
  read s := by
    refine .get (fun m => ?_) fun _ _ _ => rfl
    split
    · exact .pure _
    · exact .throw _
  callHost name args m steps limit := by
    unfold callHost
    dsimp only [Machine.metered]
    cases m.host.call name args m.world <;> rfl
  dispose := dispose_blind
  moveNext _ := .modifyGet fun _ _ _ => rfl
  current id := by
    refine .get (fun m => ?_) fun _ _ _ => rfl
    split
    · exact .pure _
    · exact .throw _

end Eval

theorem Expr.eval_blind (e : Expr) : Blind (e.eval : Eval ω Value) :=
  Eval.closed_blind.eval e

/-- The choice of an arm neither reads nor changes the meter. -/
theorem Exec.choice_blind (value : Expr) (cases : List (Arm Node)) :
    Blind (value.eval >>= fun v => select v cases : Eval ω (Option Node)) :=
  value.eval_blind.andThen fun v => Eval.closed_blind.select v cases

end StructuredFlow
