import StructuredFlow.Symbol
import StructuredFlow.Operator
import StructuredFlow.Text.Quoted

/-
  Expressions: the scalar parts of a program, each with a type that can be read off it. A
  placeholder stands for a variable that is known by name and type only; a fragment of code
  arrives with placeholders and is bound to symbols before it becomes part of a program.
-/

namespace StructuredFlow

inductive Constant where
  | bool (value : Bool)
  | int (value : Int32)
  | long (value : Int64)
  | str (value : String)
  | null (ty : Ty)
deriving DecidableEq, Repr, Inhabited

namespace Constant

def type : Constant → Ty
  | bool _ => .bool
  | int _ => .int
  | long _ => .long
  | str _ => .str
  | null ty => ty

/-- What a variable of the type holds before it is assigned: false, zero or null. -/
def zero? : Ty → Option Constant
  | .void => none
  | .bool => some (bool false)
  | .int => some (int 0)
  | .long => some (long 0)
  | ty => some (null ty)

def render : Constant → String
  | bool true => "true"
  | bool false => "false"
  | int i => Int.repr i.toInt
  | long i => Int.repr i.toInt ++ "L"
  | str s => Text.quote s
  | null _ => "null"

theorem type_of_zero? {ty : Ty} {c : Constant} (h : zero? ty = some c) : c.type = ty := by
  cases ty <;> simp [zero?] at h <;> subst h <;> rfl

theorem zero?_eq_none_iff {ty : Ty} : zero? ty = none ↔ ty = .void := by
  cases ty <;> simp [zero?]

end Constant

/-- A variable as a fragment knows it, by name and type. -/
structure Placeholder where
  name : String
  ty : Ty
deriving DecidableEq, Repr, Inhabited

inductive Expr where
  | const (value : Constant)
  | param (placeholder : Placeholder)
  | var (symbol : Symbol)
  | unary (op : UnaryOp) (operand : Expr)
  | binary (op : BinaryOp) (left right : Expr)
  | convert (operand : Expr) (ty : Ty)
  | intrinsic (op : Intrinsic) (args : List Expr)
  | call (function : String) (args : List Expr) (ty : Ty)
  | construct (ty : Ty) (args : List Expr)
  | list (elem : Ty) (items : List Expr)
deriving BEq, Repr, Inhabited

namespace Expr

def null (ty : Ty) : Expr :=
  .const (.null ty)

/-- The operands of an expression, from left to right. -/
def children : Expr → List Expr
  | const _ | param _ | var _ => []
  | unary _ operand | convert operand _ => [operand]
  | binary _ left right => [left, right]
  | intrinsic _ args | call _ args _ | construct _ args => args
  | list _ items => items

def isNull : Expr → Bool
  | const (.null _) => true
  | _ => false

mutual

/-- The type of an expression. An intrinsic takes its type from its first operand; on an operand
that does not fit, the type is `void`. -/
def type : Expr → Ty
  | const c => c.type
  | param p => p.ty
  | var s => s.ty
  | unary .neg operand => operand.type
  | unary .not _ => .bool
  | binary (.arith _) left _ => left.type
  | binary _ _ _ => .bool
  | convert _ ty => ty
  | intrinsic .getIterator args => ((headType? args).bind Ty.iteratorType?).getD .void
  | intrinsic .moveNext _ => .bool
  | intrinsic .current args => ((headType? args).bind Ty.elementType?).getD .void
  | intrinsic .dispose _ => .void
  | intrinsic .range _ => .range
  | call _ _ ty => ty
  | construct ty _ => ty
  | list elem _ => .list elem

def headType? : List Expr → Option Ty
  | [] => none
  | e :: _ => some e.type

end

mutual

/-- The written form of an expression: every binary operation and conversion stands in parentheses.
-/
def render : Expr → String
  | const c => c.render
  | param p => "?" ++ p.name
  | var s => s.render
  | unary op operand => op.render ++ operand.render
  | binary op left right => "(" ++ left.render ++ " " ++ op.render ++ " " ++ right.render ++ ")"
  | convert operand ty => "(" ++ operand.render ++ " as " ++ ty.render ++ ")"
  | intrinsic op args => op.render ++ "(" ++ ", ".intercalate (renderAll args) ++ ")"
  | call function args _ => "call " ++ function ++ "(" ++ ", ".intercalate (renderAll args) ++ ")"
  | construct ty args => "new " ++ ty.render ++ "(" ++ ", ".intercalate (renderAll args) ++ ")"
  | list _ items => "[" ++ ", ".intercalate (renderAll items) ++ "]"

def renderAll : List Expr → List String
  | [] => []
  | e :: rest => e.render :: renderAll rest

end

mutual

/-- The placeholders of an expression, as they are met from left to right. -/
def placeholders : Expr → List Placeholder
  | const _ | var _ => []
  | param p => [p]
  | unary _ operand | convert operand _ => operand.placeholders
  | binary _ left right => left.placeholders ++ right.placeholders
  | intrinsic _ args | call _ args _ | construct _ args => placeholdersAll args
  | list _ items => placeholdersAll items

def placeholdersAll : List Expr → List Placeholder
  | [] => []
  | e :: rest => e.placeholders ++ placeholdersAll rest

end

@[simp] theorem headType?_eq (es : List Expr) : headType? es = es.head?.map type := by
  cases es <;> simp [headType?]

@[simp] theorem renderAll_eq_map (es : List Expr) : renderAll es = es.map render := by
  induction es with
  | nil => rfl
  | cons e es ih => simp [renderAll, ih]

@[simp] theorem placeholdersAll_eq_flatMap (es : List Expr) :
    placeholdersAll es = es.flatMap placeholders := by
  induction es with
  | nil => rfl
  | cons e es ih => simp [placeholdersAll, ih]

/-- The placeholders of an expression with operands are those of its operands. -/
theorem placeholders_eq_flatMap {e : Expr} (h : ∀ p, e ≠ param p) :
    e.placeholders = e.children.flatMap placeholders := by
  cases e <;> simp_all [placeholders, children]

end Expr

end StructuredFlow
