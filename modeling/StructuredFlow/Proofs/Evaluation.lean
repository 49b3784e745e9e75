import StructuredFlow.Machine.Exec

/-
  What holds of every evaluation. A property of programs that two programs in a row inherit from
  their parts, and that the few primitives which touch the machine have (`Eval.Closed`), holds of
  the evaluation of every expression and of the choice of an arm.
-/

namespace StructuredFlow

variable {ω : Type}

namespace Eval

/-- The property holds of the primitives, and of programs that are made of such ones. -/
structure Closed (P : {α : Type} → Eval ω α → Prop) : Prop where
  pure : ∀ {α : Type} (a : α), P (pure a : Eval ω α)
  throw : ∀ {α : Type} (e : EvalError), P (throw e : Eval ω α)
  andThen : ∀ {α β : Type} {x : Eval ω α} {f : α → Eval ω β}, P x → (∀ a, P (f a)) → P (x >>= f)
  newObject : ∀ className fields, P (newObject className fields)
  newIterator : ∀ c, P (newIterator c)
  read : ∀ s, P (read s)
  callHost : ∀ name args, P (callHost name args)
  dispose : ∀ v, P (dispose v)
  moveNext : ∀ id, P (moveNext id)
  current : ∀ id, P (current id)

namespace Closed

variable {P : {α : Type} → Eval ω α → Prop} (h : Closed P)
include h

theorem divisionByZero : P divisionByZero :=
  h.andThen (h.newObject _ _) fun _ => h.throw _

theorem unary (op : UnaryOp) (v : Value) : P (unary op v) := by
  unfold Eval.unary
  split
  · exact h.pure _
  · exact h.pure _
  · exact h.pure _
  · exact h.throw _

theorem arith (op : Arith) (a b : Value) : P (arith op a b) := by
  unfold Eval.arith
  split
  · split
    · exact h.pure _
    · exact h.divisionByZero
  · split
    · exact h.pure _
    · exact h.divisionByZero
  · split
    · exact h.pure _
    · exact h.throw _
  · exact h.throw _

theorem order (op : Order) (a b : Value) : P (order op a b) := by
  unfold Eval.order
  split
  · exact h.pure _
  · exact h.pure _
  · exact h.pure _
  · exact h.throw _

theorem binary (op : BinaryOp) (a b : Value) : P (binary op a b) := by
  unfold Eval.binary
  split
  · exact h.arith _ _ _
  · exact h.pure _
  · exact h.pure _
  · exact h.order _ _ _
  all_goals
    split
    · exact h.pure _
    · exact h.throw _

theorem convert (v : Value) (ty : Ty) : P (convert v ty) := by
  unfold Eval.convert
  split
  · exact h.pure _
  · exact h.throw _

theorem intrinsic (op : Intrinsic) (args : List Value) : P (intrinsic op args) := by
  unfold Eval.intrinsic
  split
  · exact h.newIterator _
  · exact h.newIterator _
  · exact h.moveNext _
  · exact h.current _
  · exact h.dispose _
  · exact h.pure _
  · exact h.throw _

theorem construct (ty : Ty) (fields : List Value) : P (construct ty fields) := by
  unfold Eval.construct
  split
  · exact h.newObject _ _
  · exact h.throw _

mutual

theorem eval (e : Expr) : P e.eval := by
  cases e with
  | const c => exact h.pure _
  | param p => exact h.throw _
  | var s => exact h.read s
  | unary op operand => exact h.andThen (eval operand) fun _ => h.unary _ _
  | binary op left right =>
    refine h.andThen (eval left) fun a => ?_
    split
    · exact h.pure _
    · exact h.andThen (eval right) fun _ => h.binary _ _ _
  | convert operand ty => exact h.andThen (eval operand) fun _ => h.convert _ _
  | intrinsic op args => exact h.andThen (evalAll args) fun _ => h.intrinsic _ _
  | call function args ty => exact h.andThen (evalAll args) fun _ => h.callHost _ _
  | construct ty args => exact h.andThen (evalAll args) fun _ => h.construct _ _
  | list elem items => exact h.andThen (evalAll items) fun _ => h.pure _

theorem evalAll (es : List Expr) : P (Expr.evalAll es) := by
  cases es with
  | nil => exact h.pure _
  | cons e es => exact h.andThen (eval e) fun _ => h.andThen (evalAll es) fun _ => h.pure _

end

theorem selects (discriminant : Value) (values : List Expr) :
    P (Exec.select.selects discriminant values) := by
  induction values with
  | nil => exact h.pure _
  | cons e values ih =>
    refine h.andThen (h.eval e) fun v => ?_
    split
    · exact h.pure _
    · exact ih

theorem select (discriminant : Value) (cases : List (Arm Node)) :
    P (Exec.select discriminant cases) := by
  induction cases with
  | nil => exact h.pure _
  | cons a cases ih =>
    refine h.andThen (h.selects discriminant a.values) fun found => ?_
    split
    · exact h.pure _
    · exact ih

end Closed

end Eval

end StructuredFlow
