import StructuredFlow.Machine

/-
  Evaluation of expressions, from left to right. The logical operators leave their right side alone
  when the left side decides; everything else evaluates all of its operands first.
-/

namespace StructuredFlow

abbrev Eval (ω : Type) := EStateM EvalError (Machine ω)

/-- The result of an arithmetic operator in words that wrap around; there is none for a division or
remainder by zero. Quotients are cut off towards zero. -/
def Arith.compute? {α : Type} [Add α] [Sub α] [Mul α] [Div α] [Mod α] [OfNat α 0] [DecidableEq α]
    (op : Arith) (a b : α) : Option α :=
  match op with
  | add => some (a + b)
  | sub => some (a - b)
  | mul => some (a * b)
  | div => if b = 0 then none else some (a / b)
  | mod => if b = 0 then none else some (a % b)

/-- The numbers of a range in ascending order, without its end. -/
def Value.rangeItems (start stop : Int32) : List Value :=
  (List.range (stop.toInt - start.toInt).toNat).map fun k : Nat =>
    .int (Int32.ofInt (start.toInt + k))

/-- What the log of disposals says about a value. -/
def Value.disposalName (v : Value) : String :=
  v.className?.getD v.kindName

/-- The value in a place of the given type. Integers change their width, an object has to be of the
class, and anything but a number or a bool is an `any`. -/
def Value.convert? (v : Value) (ty : Ty) : Option Value :=
  match v, ty with
  | .null, _ => some .null
  | .int i, .long => some (.long i.toInt64)
  | .long i, .int => some (.int i.toInt32)
  | .int i, .int => some (.int i)
  | .long i, .long => some (.long i)
  | .bool b, .bool => some (.bool b)
  | .str s, .str => some (.str s)
  | .int _, .any | .long _, .any | .bool _, .any => none
  | v, .any => some v
  | .object id name fields, .object kind =>
    if name = kind then some (.object id name fields) else none
  | _, _ => none

namespace Eval

variable {ω : Type}

def newObject (className : String) (fields : List Value) : Eval ω Value :=
  modifyGet fun m =>
    let (v, heap) := m.heap.newObject className fields
    (v, { m with heap })

def newIterator (c : Cursor) : Eval ω Value :=
  modifyGet fun m =>
    let (v, heap) := m.heap.newIterator c
    (v, { m with heap })

def read (s : Symbol) : Eval ω Value := do
  match (← get).env.get? s.id with
  | some v => return v
  | none => throw (.unboundSymbol s)

/-- The exception of a division by zero. -/
def divisionByZero : Eval ω Value := do
  throw (.thrown (← newObject "ArithmeticError" []))

def callHost (name : String) (args : List Value) : Eval ω Value := fun m =>
  match m.host.call name args m.world with
  | .ok v world => .ok v { m with world }
  | .error e world => .error e { m with world }

def unary (op : UnaryOp) (v : Value) : Eval ω Value :=
  match op, v with
  | .neg, .int i => return .int (-i)
  | .neg, .long i => return .long (-i)
  | .not, .bool b => return .bool (!b)
  | op, v => throw (.typeError (.unaryOperand op v))

def arith (op : Arith) (a b : Value) : Eval ω Value :=
  match a, b with
  | .int a, .int b =>
    match op.compute? a b with
    | some c => return .int c
    | none => divisionByZero
  | .long a, .long b =>
    match op.compute? a b with
    | some c => return .long c
    | none => divisionByZero
  | .str a, .str b =>
    match op with
    | .add => return .str (a ++ b)
    | op => throw (.typeError (.texts (.arith op)))
  | a, b => throw (.typeError (.operands (.arith op) a b))

def order (op : Order) (a b : Value) : Eval ω Value :=
  match a, b with
  | .int a, .int b => return .bool (op.holds a b)
  | .long a, .long b => return .bool (op.holds a b)
  | .str a, .str b => return .bool (op.holds a b)
  | a, b => throw (.typeError (.operands (.order op) a b))

/-- The left side alone decides: a false conjunction, a true disjunction. -/
def decides : BinaryOp → Value → Bool
  | .and, .bool false => true
  | .or, .bool true => true
  | _, _ => false

/-- A binary operator on both of its operands; the logical ones get here only if the right one
settles the result. -/
def binary (op : BinaryOp) (a b : Value) : Eval ω Value :=
  match op with
  | .arith op => arith op a b
  | .equal => return .bool (a == b)
  | .notEqual => return .bool (!(a == b))
  | .order op => order op a b
  | .and | .or =>
    match b with
    | .bool b => return .bool b
    | b => throw (.typeError (.logicalOperand b))

def convert (v : Value) (ty : Ty) : Eval ω Value :=
  match v.convert? ty with
  | some v => return v
  | none => throw (.typeError (.conversion v ty))

/-- Disposal marks an iterator, and is logged for anything but null. -/
def dispose (v : Value) : Eval ω Value := do
  match v with
  | .null => return .void
  | .iterator id => modify fun m => m.setCursor id (m.heap.cursor id).dispose
  | _ => pure ()
  modify (·.logDisposal v.disposalName)
  return .void

def moveNext (id : CursorId) : Eval ω Value :=
  modifyGet fun m =>
    let (moved, c) := (m.heap.cursor id).moveNext
    (.bool moved, m.setCursor id c)

def current (id : CursorId) : Eval ω Value := do
  match ((← get).heap.cursor id).current with
  | some v => return v
  | none => throw (.typeError .noCurrent)

def intrinsic (op : Intrinsic) (args : List Value) : Eval ω Value :=
  match op, args with
  | .getIterator, [.list items] => newIterator (Cursor.ofItems items true)
  | .getIterator, [.range start stop] =>
    newIterator (Cursor.ofItems (Value.rangeItems start stop) false)
  | .moveNext, [.iterator id] => moveNext id
  | .current, [.iterator id] => current id
  | .dispose, [v] => dispose v
  | .range, [.int start, .int stop] => return .range start stop
  | op, args => throw (.typeError (.arguments op args))

def construct (ty : Ty) (fields : List Value) : Eval ω Value :=
  match ty with
  | .object name => newObject name fields
  | ty => throw (.typeError (.notClass ty))

end Eval

namespace Expr

variable {ω : Type}

mutual

/-- The value of an expression. -/
def eval : Expr → Eval ω Value
  | const c => return Value.ofConstant c
  | param p => throw (.unboundPlaceholder p.name)
  | var s => Eval.read s
  | unary op operand => do Eval.unary op (← operand.eval)
  | binary op left right => do
    let a ← left.eval
    if Eval.decides op a then
      return a
    Eval.binary op a (← right.eval)
  | convert operand ty => do Eval.convert (← operand.eval) ty
  | intrinsic op args => do Eval.intrinsic op (← evalAll args)
  | call function args _ => do Eval.callHost function (← evalAll args)
  | construct ty args => do Eval.construct ty (← evalAll args)
  | list _ items => return .list (← evalAll items)

def evalAll : List Expr → Eval ω (List Value)
  | [] => return []
  | e :: rest => return (← e.eval) :: (← evalAll rest)

end

end Expr

end StructuredFlow
