import StructuredFlow.Proofs.TypePreservation

/-
  Evaluations that fail. An operand that fails makes its expression fail, for the same cause and in
  the same machine, up to the expression that a node evaluates (`Expr.Starts.fails`). What the node
  makes of it depends on the cause alone (`Exec.raised`): an exception becomes its flow, any other
  cause stops it. That is so at each of the places where a node evaluates an expression
  (`Node.Evaluates.raises`).
-/

namespace StructuredFlow

variable {ω : Type} {m m₁ m₂ : Machine ω} {cause : EvalError}

open Outcome Exec

/-! ## Expressions -/

namespace Expr

theorem evalAll_error {before after : List Expr} {x : Expr} {vs : List Value}
    (given : evalAll before m = .ok vs m₁) (failed : x.eval m₁ = .error cause m₂) :
    evalAll (before ++ x :: after) m = .error cause m₂ := by
  induction before generalizing m vs with
  | nil =>
    obtain ⟨-, rfl⟩ := pure_ok.mp given
    exact andThen_error.mpr (.inl failed)
  | cons y before ih =>
    obtain ⟨v, m', hy, given⟩ := andThen_ok.mp given
    obtain ⟨ws, m'', hbefore, given⟩ := andThen_ok.mp given
    obtain ⟨-, rfl⟩ := pure_ok.mp given
    exact andThen_error.mpr (.inr ⟨v, m', hy, andThen_error.mpr (.inl (ih hbefore))⟩)

/-- An operand that is evaluated and fails makes the expression fail. -/
theorem eval_operand_error {e x : Expr} {before after : List Expr} {vs : List Value}
    (place : e.children = before ++ x :: after) (given : evalAll before m = .ok vs m₁)
    (unsettled : e.isSettledBy vs = false) (failed : x.eval m₁ = .error cause m₂) :
    e.eval m = .error cause m₂ := by
  have hall : evalAll e.children m = .error cause m₂ := place ▸ evalAll_error given failed
  cases e with
  | const c | param p | var s => cases hall
  | unary op operand | convert operand ty =>
    rcases andThen_error.mp hall with hoperand | ⟨v, m', -, hrest⟩
    · exact andThen_error.mpr (.inl hoperand)
    · cases hrest
  | binary op left right =>
    cases before with
    | nil =>
      obtain ⟨rfl, -⟩ := List.cons.inj place
      obtain ⟨-, rfl⟩ := pure_ok.mp given
      exact andThen_error.mpr (.inl failed)
    | cons y before =>
      obtain ⟨rfl, place⟩ := List.cons.inj place
      obtain ⟨rfl, rfl, -⟩ : before = [] ∧ x = right ∧ after = [] := by
        cases before <;> simp_all
      obtain ⟨a, m', hleft, given⟩ := andThen_ok.mp given
      obtain ⟨rfl, rfl⟩ := pure_ok.mp given
      refine andThen_error.mpr (.inr ⟨a, _, hleft, ?_⟩)
      exact ite_run.mpr (.inr ⟨Bool.eq_false_iff.mp unsettled, andThen_error.mpr (.inl failed)⟩)
  | intrinsic op args | call function args ty | construct ty args | list elem items =>
    exact andThen_error.mpr (.inl hall)

/-- An evaluation inside of another one that fails makes that one fail. -/
theorem Starts.fails {e e' : Expr} (h : e.Starts m e' m₁) (failed : e'.eval m₁ = .error cause m₂) :
    e.eval m = .error cause m₂ := by
  induction h with
  | here => exact failed
  | operand place given unsettled _ ih => exact eval_operand_error place given unsettled (ih failed)

end Expr

/-! ## Nodes -/

namespace Exec

/-- The outcome of a node whose own evaluation has failed. -/
def raised (cause : EvalError) (m : Machine ω) : EStateM.Result Halt (Machine ω) Flow :=
  match cause with
  | .thrown v => .ok (.throw v) m
  | e => .error (.failed e) m

theorem raised_of_ne (h : ∀ v, cause ≠ .thrown v) : raised cause m = .error (.failed cause) m := by
  cases cause with
  | thrown v => exact absurd rfl (h v)
  | _ => rfl

theorem evaluating_error {α : Type} {x : Eval ω α} {next : α → Exec ω Flow}
    (h : x m = .error cause m₁) : evaluating x next m = raised cause m₁ := by
  unfold evaluating
  rw [h]
  cases cause <;> rfl

theorem selects_append_error {v : Value} {before after : List Expr} {e : Expr}
    (missed : select.selects v before m = .ok false m₁) (failed : e.eval m₁ = .error cause m₂) :
    select.selects v (before ++ e :: after) m = .error cause m₂ := by
  induction before generalizing m with
  | nil =>
    obtain ⟨-, rfl⟩ := pure_ok.mp missed
    exact andThen_error.mpr (.inl failed)
  | cons x before ih =>
    obtain ⟨w, m', hx, missed⟩ := andThen_ok.mp missed
    refine andThen_error.mpr (.inr ⟨w, m', hx, ?_⟩)
    rcases ite_run.mp missed with ⟨-, hit⟩ | ⟨hne, missed⟩
    · cases hit
    · exact ite_run.mpr (.inr ⟨hne, ih missed⟩)

/-- Values that come first and are missed. -/
theorem selects_append_ok {v : Value} {before after : List Expr}
    (missed : select.selects v (before ++ after) m = .ok false m₂) :
    ∃ m₁, select.selects v before m = .ok false m₁ ∧ select.selects v after m₁ = .ok false m₂ := by
  induction before generalizing m with
  | nil => exact ⟨m, rfl, missed⟩
  | cons x before ih =>
    obtain ⟨w, m', hx, missed⟩ := andThen_ok.mp missed
    rcases ite_run.mp missed with ⟨-, hit⟩ | ⟨hne, missed⟩
    · cases hit
    · obtain ⟨m₁, hbefore, hafter⟩ := ih missed
      exact ⟨m₁, andThen_ok.mpr ⟨w, m', hx, ite_run.mpr (.inr ⟨hne, hbefore⟩)⟩, hafter⟩

/-- A value of an arm that is tried and fails makes the choice fail. -/
theorem select_error_of_tried {v : Value} {arms : List (Arm Node)} {before after : List Expr}
    {e : Expr} (place : arms.flatMap Arm.values = before ++ e :: after)
    (missed : select.selects v before m = .ok false m₁) (failed : e.eval m₁ = .error cause m₂) :
    select v arms m = .error cause m₂ := by
  induction arms generalizing m before with
  | nil => exact absurd place (by simp)
  | cons a arms ih =>
    rw [List.flatMap_cons] at place
    rcases List.append_eq_append_iff.mp place with ⟨later, rfl, hlater⟩ | ⟨rest, hvalues, hrest⟩
    · -- All values of the first arm have been missed.
      obtain ⟨m', hmissed, missed⟩ := selects_append_ok missed
      exact andThen_error.mpr (.inr ⟨false, m', hmissed, ih hlater missed⟩)
    · cases rest with
      | nil =>
        rw [List.append_nil] at hvalues
        refine andThen_error.mpr (.inr ⟨false, m₁, hvalues ▸ missed, ?_⟩)
        exact ih (show arms.flatMap Arm.values = [] ++ e :: after from hrest.symm) rfl
      | cons x rest =>
        obtain ⟨rfl, -⟩ := List.cons.inj hrest
        exact andThen_error.mpr (.inl (hvalues ▸ selects_append_error missed failed))

end Exec

namespace Node

/-- An evaluation that a node makes and that fails settles the outcome of the node. -/
theorem Evaluates.raises {n : Node} {d : Option Descent} {e : Expr} {fuel : Nat} {m₃ : Machine ω}
    (ticked : tick m = .ok () m₁) (h : n.Evaluates d m₁ e m₂)
    (failed : e.eval m₂ = .error cause m₃) :
    n.execWithin (fuel + 1) d m = raised cause m₃ := by
  rw [execWithin, step.eq_def, andThen_of_ok ticked]
  cases h with
  | eval | assign | throw | goto | test => exact evaluating_error failed
  | discriminant => exact evaluating_error (andThen_error.mpr (.inl failed))
  | tried chosen place missed =>
    refine evaluating_error (andThen_error.mpr (.inr ⟨_, _, chosen, ?_⟩))
    exact select_error_of_tried place missed failed

end Node

/-- The execution of a call evaluates the expression by itself, at its node and starting from the
machine: the node does, or the expression is an operand of one that the node evaluates. -/
def Call.Evaluates (c : Call ω) (e : Expr) (m : Machine ω) : Prop :=
  ∃ m₁ e₀ m₀, tick c.machine = .ok () m₁ ∧ c.node.Evaluates c.descent m₁ e₀ m₀ ∧ e₀.Starts m₀ e m

theorem Call.Evaluates.raises {c : Call ω} {e : Expr} {fuel : Nat} (h : c.Evaluates e m)
    (failed : e.eval m = .error cause m₁) :
    c.result (Node.execWithin (fuel + 1)) = raised cause m₁ := by
  obtain ⟨m', e₀, m₀, ticked, hnode, hstarts⟩ := h
  exact hnode.raises ticked (hstarts.fails failed)

end StructuredFlow
