import StructuredFlow.Ty

/-
  Why a builder refuses an operation or cannot assemble what was built. The wording of every cause
  is here, and so is its category.
-/

namespace StructuredFlow

/-- The two jumps that belong to a loop: out of it, and to its next round. -/
inductive LoopTarget where
  | leave
  | next
deriving DecidableEq, Repr, Inhabited

namespace LoopTarget

/-- The statement that asks for the jump. -/
def statement : LoopTarget → String
  | leave => "break"
  | next => "continue"

end LoopTarget

inductive BuildError where
  | nameConflict (name : String)
  | duplicateLabel (name : String)
  | duplicateDefault
  | duplicateVariable (name : String)
  | duplicateFinally
  | alreadyHasAlternative
  | unknownScope (id : Nat)
  | noEnclosingLoop (jump : LoopTarget)
  | noEnclosingCatch
  | unknownLabel (name : String)
  | emptyBranch
  | emptyTry
  | unboundPlaceholder (name : String)
  | placeholderTypeMismatch (name : String) (expected found : Ty)
  | unauthorizedCapture (name : String)
  | typeMismatch (expected found : Ty)
  | notIterable (ty : Ty)
  | returnTypeMismatch (expected found : Ty)
deriving DecidableEq, Repr, Inhabited

/-- What a cause is about: the shape of what is built, the place of a statement, a name that is
settled later only, a construct that was left unfinished, or the binding of names and types. -/
inductive BuildError.Category where
  | structural
  | contextual
  | deferred
  | completeness
  | binding
deriving DecidableEq, Repr, Inhabited

namespace BuildError

def category : BuildError → Category
  | nameConflict _ | duplicateLabel _ | duplicateDefault | duplicateVariable _ | duplicateFinally
  | alreadyHasAlternative | unknownScope _ => .structural
  | noEnclosingLoop _ | noEnclosingCatch => .contextual
  | unknownLabel _ => .deferred
  | emptyBranch | emptyTry => .completeness
  | unboundPlaceholder _ | placeholderTypeMismatch _ _ _ | unauthorizedCapture _ | typeMismatch _ _
  | notIterable _ | returnTypeMismatch _ _ => .binding

def message : BuildError → String
  | nameConflict name => "Name '" ++ name ++ "' conflicts with a visible symbol"
  | duplicateLabel name => "Label '" ++ name ++ "' is already defined"
  | duplicateDefault => "Switch already has a default branch"
  | duplicateVariable name => "Catch variable '" ++ name ++ "' collides with a visible symbol"
  | duplicateFinally => "Try already has a finally block"
  | alreadyHasAlternative => "Conditional already has an alternative branch"
  | unknownScope id => "Scope " ++ Nat.repr id ++ " does not belong to this builder"
  | noEnclosingLoop jump => "Invalid " ++ jump.statement ++ " statement (not in loop)"
  | noEnclosingCatch => "Invalid rethrow statement (not in catch)"
  | unknownLabel name => "Undefined label: " ++ name
  | emptyBranch => "Switch has neither cases nor a default"
  | emptyTry => "Try has neither a catch nor a finally"
  | unboundPlaceholder name => "Placeholder '" ++ name ++ "' does not match a visible symbol"
  | placeholderTypeMismatch name expected found =>
    "Placeholder '" ++ name ++ "' expects " ++ expected.render ++ ", visible symbol has " ++
      found.render
  | unauthorizedCapture name =>
    "Fragment captures external symbol '" ++ name ++ "' but captures are disabled"
  | typeMismatch expected found =>
    "Type mismatch: expected " ++ expected.render ++ ", got " ++ found.render
  | notIterable ty => "Type " ++ ty.render ++ " is not iterable"
  | returnTypeMismatch expected found =>
    "Return type mismatch: expected " ++ expected.render ++ ", got " ++ found.render

end BuildError

end StructuredFlow
