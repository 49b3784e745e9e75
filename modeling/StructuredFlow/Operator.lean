/-
  Operators of expressions. Binary operators fall into four families: arithmetic, order, equality
  and logic; the first two name a computation on numbers or texts, the last may leave its right
  side alone.
-/

namespace StructuredFlow

inductive Arith where
  | add
  | sub
  | mul
  | div
  | mod
deriving DecidableEq, Repr, Inhabited

inductive Order where
  | lt
  | le
  | gt
  | ge
deriving DecidableEq, Repr, Inhabited

inductive BinaryOp where
  | arith (op : Arith)
  | equal
  | notEqual
  | order (op : Order)
  | and
  | or
deriving DecidableEq, Repr, Inhabited

inductive UnaryOp where
  | neg
  | not
deriving DecidableEq, Repr, Inhabited

/-- Built-in operations on collections, iterators and resources. -/
inductive Intrinsic where
  | getIterator
  | moveNext
  | current
  | dispose
  | range
deriving DecidableEq, Repr, Inhabited

namespace Arith

def render : Arith → String
  | add => "+"
  | sub => "-"
  | mul => "*"
  | div => "/"
  | mod => "%"

/-- The operators in their usual order. -/
def all : List Arith := [add, sub, mul, div, mod]

end Arith

namespace Order

def render : Order → String
  | lt => "<"
  | le => "<="
  | gt => ">"
  | ge => ">="

/-- The operators in their usual order. -/
def all : List Order := [lt, le, gt, ge]

/-- The comparison of two values of a linearly ordered type. -/
def holds {α : Type} [LT α] [DecidableLT α] (op : Order) (a b : α) : Bool :=
  match op with
  | lt => a < b
  | le => !(b < a)
  | gt => b < a
  | ge => !(a < b)

end Order

namespace BinaryOp

def isArithmetic : BinaryOp → Bool
  | arith _ => true
  | _ => false

def isComparison : BinaryOp → Bool
  | equal | notEqual | order _ => true
  | _ => false

def isLogical : BinaryOp → Bool
  | and | or => true
  | _ => false

def render : BinaryOp → String
  | arith op => op.render
  | equal => "=="
  | notEqual => "!="
  | order op => op.render
  | and => "&&"
  | or => "||"

/-- All binary operators: arithmetic, equality, order, logic. -/
def all : List BinaryOp :=
  Arith.all.map arith ++ [equal, notEqual] ++ Order.all.map order ++ [and, or]

end BinaryOp

namespace UnaryOp

def render : UnaryOp → String
  | neg => "-"
  | not => "!"

def all : List UnaryOp := [neg, not]

end UnaryOp

namespace Intrinsic

def render : Intrinsic → String
  | getIterator => "get_iterator"
  | moveNext => "move_next"
  | current => "current"
  | dispose => "dispose"
  | range => "range"

def all : List Intrinsic := [getIterator, moveNext, current, dispose, range]

end Intrinsic

end StructuredFlow
