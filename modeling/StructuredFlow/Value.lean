import StructuredFlow.Expr

/-
  Values that a running program computes with. Numbers, texts, ranges and lists are compared by
  what they hold; an object and an iterator carry a number of their own and are equal to
  themselves only.
-/

namespace StructuredFlow

abbrev ObjectId := Nat

abbrev CursorId := Nat

inductive Value where
  | void
  | bool (value : Bool)
  | int (value : Int32)
  | long (value : Int64)
  | str (value : String)
  | null
  | object (id : ObjectId) (className : String) (fields : List Value)
  | list (items : List Value)
  | range (start stop : Int32)
  | iterator (id : CursorId)
deriving Repr, Inhabited

namespace Value

/-- The value that a constant stands for; all nulls are one value. -/
def ofConstant : Constant → Value
  | .bool b => bool b
  | .int i => int i
  | .long i => long i
  | .str s => str s
  | .null _ => null

/-- What a variable of the type holds before it is assigned. -/
def zero (ty : Ty) : Value :=
  ((Constant.zero? ty).map ofConstant).getD void

def asInt? : Value → Option Int32
  | int i => some i
  | _ => none

def asLong? : Value → Option Int64
  | long i => some i
  | _ => none

def asBool? : Value → Option Bool
  | bool b => some b
  | _ => none

def className? : Value → Option String
  | object _ name _ => some name
  | _ => none

def isNull : Value → Bool
  | null => true
  | _ => false

/-- The word for the kind of value. -/
def kindName : Value → String
  | void => "void"
  | bool _ => "bool"
  | int _ => "int"
  | long _ => "long"
  | str _ => "str"
  | null => "null"
  | object _ _ _ => "object"
  | list _ => "list"
  | range _ _ => "range"
  | iterator _ => "iterator"

/-- A handler of the given kind is meant for the value: `any` for whatever is held by reference, a
class for its objects, and `str` for texts. -/
def isInstanceOf : Value → Ty → Bool
  | object _ _ _, .any | str _, .any | list _, .any | iterator _, .any => true
  | object _ name _, .object kind => name == kind
  | str _, .str => true
  | _, _ => false

mutual

/-- Equality of values: by identity for objects and iterators, otherwise by what they hold. -/
def same : Value → Value → Bool
  | void, void => true
  | bool a, bool b => a == b
  | int a, int b => a == b
  | long a, long b => a == b
  | str a, str b => a == b
  | null, null => true
  | object a _ _, object b _ _ => a == b
  | list a, list b => sameAll a b
  | range a b, range c d => a == c && b == d
  | iterator a, iterator b => a == b
  | _, _ => false

def sameAll : List Value → List Value → Bool
  | [], [] => true
  | a :: as, b :: bs => a.same b && sameAll as bs
  | _, _ => false

end

instance : BEq Value := ⟨same⟩

mutual

/-- The written form of a value; of an object the class alone. -/
def render : Value → String
  | void => "void"
  | bool true => "true"
  | bool false => "false"
  | int i => Int.repr i.toInt
  | long i => Int.repr i.toInt ++ "L"
  | str s => Text.quote s
  | null => "null"
  | object _ name _ => name ++ " instance"
  | list items => "[" ++ ", ".intercalate (renderAll items) ++ "]"
  | range start stop => Int.repr start.toInt ++ ".." ++ Int.repr stop.toInt
  | iterator _ => "<iterator>"

def renderAll : List Value → List String
  | [] => []
  | v :: rest => v.render :: renderAll rest

end

@[simp] theorem renderAll_eq_map (vs : List Value) : renderAll vs = vs.map render := by
  induction vs with
  | nil => rfl
  | cons v vs ih => simp [renderAll, ih]

theorem zero_eq_void_iff {ty : Ty} : zero ty = void ↔ ty = .void := by
  cases ty <;> simp [zero, Constant.zero?, ofConstant]

@[simp] theorem isInstanceOf_null (kind : Ty) : isInstanceOf null kind = false := by
  cases kind <;> rfl

end Value

end StructuredFlow
