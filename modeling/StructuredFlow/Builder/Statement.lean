import StructuredFlow.Builder

/-
  Statements that stand by themselves. Each is checked in its scope before anything is changed.
-/

namespace StructuredFlow

inductive Statement where
  | declare (name : String) (ty : Ty)
  | assign (name : String) (ty : Ty) (value : Fragment)
  | act (fragment : Fragment)
  | jump (jump : LoopTarget)
  | returnValue (ty : Ty) (value : Fragment)
  | returnVoid
  | goto (name : String)
  | label (name : String)
  | throw (value : Fragment)
  | rethrow
deriving Repr, Inhabited

namespace Build

/-- The variable of a name and type: the visible one, or a new local if the name means nothing
yet. -/
def target (id : ScopeId) (name : String) (ty : Ty) : Build Symbol := do
  match (← get).lookup id name with
  | some s => if s.ty = ty then return s else throw (.typeMismatch s.ty ty)
  | none => bind id name ty Frame.addLocal

/-- The value is resolved first, so that it cannot refer to a variable that it brings into being.
-/
def assign (id : ScopeId) (name : String) (ty : Ty) (value : Fragment) : Build Unit := do
  let value ← resolve id value
  requireType ty value
  let target ← target id name ty
  pushNode id (.assign target value)

def act (id : ScopeId) (f : Fragment) : Build Unit := do
  pushNode id (.eval (← resolve id f))

/-- Leaves the innermost loop, or goes on with its next round. -/
def jump (id : ScopeId) (jump : LoopTarget) : Build Unit := do
  match (← chain id).loopLabels? with
  | none => throw (.noEnclosingLoop jump)
  | some (leave, next) =>
    pushNode id (.goto (match jump with | .leave => leave | .next => next) none)

/-- The type that a return speaks of has to be the return type of the program. -/
def requireReturn (found : Ty) : Build Unit := do
  let expected := (← get).returnType
  unless found = expected do
    throw (.returnTypeMismatch expected found)

def returnValue (id : ScopeId) (ty : Ty) (value : Fragment) : Build Unit := do
  requireReturn ty
  let value ← resolve id value
  unless value.isNull && (← get).returnType.isReference do
    requireReturn value.type
  pushNode id (.goto (← get).returnLabel (some value))

def returnVoid (id : ScopeId) : Build Unit := do
  let _ ← chain id
  requireReturn .void
  pushNode id (.goto (← get).returnLabel none)

/-- A jump to a label by name; whether there is one shows at the end. -/
def goto (id : ScopeId) (name : String) : Build Unit := do
  let _ ← chain id
  push id (.goto name)

/-- Places a label, whose name is known in the whole program. -/
def label (id : ScopeId) (name : String) : Build Unit := do
  let _ ← chain id
  if ((← get).label? name).isSome then
    throw (.duplicateLabel name)
  let l := Label.named (← makeLabelId) name
  modify fun b => { b with labels := b.labels ++ [l] }
  pushNode id (.label l none)

/-- Raises an exception, which has to be held by reference. -/
def raise (id : ScopeId) (value : Fragment) : Build Unit := do
  let value ← resolve id value
  unless value.type.isReference do
    throw (.typeMismatch .any value.type)
  pushNode id (.throw value)

/-- Raises the exception that is being handled, so only inside of a handler. -/
def rethrow (id : ScopeId) : Build Unit := do
  unless (← chain id).inCatch do
    throw .noEnclosingCatch
  pushNode id .rethrow

/-- Puts a statement at the end of a scope. -/
def statement (id : ScopeId) : Statement → Build Unit
  | .declare name ty => do
    let _ ← bind id name ty Frame.addLocal
  | .assign name ty value => assign id name ty value
  | .act f => act id f
  | .jump j => jump id j
  | .returnValue ty value => returnValue id ty value
  | .returnVoid => returnVoid id
  | .goto name => goto id name
  | .label name => label id name
  | .throw value => raise id value
  | .rethrow => rethrow id

end Build

end StructuredFlow
