import StructuredFlow.Value

/-
  Why the evaluation of an expression or the run of a program stops without a result. One cause,
  `thrown`, is an exception on its way to a handler; no other cause can be handled in a program.
-/

namespace StructuredFlow

/-- A value that does not fit where it is used. -/
inductive TypeFault where
  | unaryOperand (op : UnaryOp) (found : Value)
  | test (found : Value)
  | logicalOperand (found : Value)
  | operands (op : BinaryOp) (left right : Value)
  | texts (op : BinaryOp)
  | notClass (ty : Ty)
  | noCurrent
  | arguments (op : Intrinsic) (found : List Value)
  | conversion (found : Value) (ty : Ty)
  | host (message : String)
deriving Repr, Inhabited

inductive EvalError where
  | thrown (exception : Value)
  | uncaught (exception : Value)
  | noActiveException
  | unboundSymbol (s : Symbol)
  | unboundPlaceholder (name : String)
  | unknownFunction (name : String)
  | arityMismatch (expected found : Nat)
  | typeError (fault : TypeFault)
  | jumpIntoHandler (target : LabelId)
  | escapedJump (target : LabelId)
  | stepLimit (limit : Nat)
deriving Repr, Inhabited

namespace TypeFault

def message : TypeFault → String
  | unaryOperand op found => "expected operand of " ++ op.render ++ ", found " ++ found.kindName
  | test found => "expected bool test, found " ++ found.kindName
  | logicalOperand found => "expected bool operand, found " ++ found.kindName
  | operands op left right =>
    "cannot apply " ++ op.render ++ " to " ++ left.kindName ++ " and " ++ right.kindName
  | texts op => "unsupported string operator " ++ op.render
  | notClass ty => "cannot instantiate " ++ ty.render
  | noCurrent => "iterator has no current element"
  | arguments op found =>
    "invalid arguments to " ++ op.render ++ ": " ++ ", ".intercalate (found.map Value.kindName)
  | conversion found ty => "cannot convert " ++ found.kindName ++ " to " ++ ty.render
  | host message => message

end TypeFault

namespace EvalError

def message : EvalError → String
  | thrown v => "Exception raised: " ++ v.render
  | uncaught v => "Uncaught exception: " ++ v.render
  | noActiveException => "Rethrow with no exception being handled"
  | unboundSymbol s => "Read of unassigned symbol " ++ s.render
  | unboundPlaceholder name => "Unbound placeholder '" ++ name ++ "' reached the interpreter"
  | unknownFunction name => "Unknown host function: " ++ name
  | arityMismatch expected found =>
    "Expected " ++ Nat.repr expected ++ " arguments, got " ++ Nat.repr found
  | typeError fault => "Type error: " ++ fault.message
  | jumpIntoHandler l => "Jump to " ++ Label.renderId l ++ " enters a catch handler"
  | escapedJump l => "Jump to " ++ Label.renderId l ++ " escaped the procedure"
  | stepLimit limit => "Step limit of " ++ Nat.repr limit ++ " exceeded"

end EvalError

end StructuredFlow
