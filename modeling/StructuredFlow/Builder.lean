import StructuredFlow.Scope.Lookup
import StructuredFlow.Fragment.Resolution
import StructuredFlow.Options

/-
  A builder holds the program under construction: the tree of scopes and the numbers that scopes,
  symbols and labels get next. Operations are in `Build`; one that is refused gives a cause. This
  module has what operations are made of: names, numbers, and statements put into scopes.
-/

namespace StructuredFlow

/-- A construct is found by the scope that it stands in and its place among the statements there.
-/
structure Site where
  scope : ScopeId
  index : Nat
deriving DecidableEq, Repr, Inhabited

structure Builder where
  options : Options
  params : List Symbol
  returnLabel : Label
  labels : List Label
  top : Scope
  scopeCount : Nat
  symbolCount : Nat
  labelCount : Nat
deriving Repr, Inhabited

abbrev Build := EStateM BuildError Builder

namespace Builder

/-- The number of the outermost scope. -/
def topId : ScopeId := 0

/-- A builder with no parameters and no statements; label 0 is where the program returns. -/
def empty (options : Options) (returnType : Ty) : Builder where
  options := options
  params := []
  returnLabel := Label.typed 0 returnType
  labels := []
  top := Scope.new topId .plain
  scopeCount := 1
  symbolCount := 0
  labelCount := 1

def returnType (b : Builder) : Ty :=
  b.returnLabel.ty

/-- The label that was placed under a name. -/
def label? (b : Builder) (name : String) : Option Label :=
  b.labels.find? (·.name == some name)

def hasScope (b : Builder) (id : ScopeId) : Bool :=
  id < b.scopeCount

/-- The chain of a scope; an unknown scope has the empty one. -/
def chain (b : Builder) (id : ScopeId) : Chain :=
  (b.top.chain? id).getD []

/-- The symbol that a name stands for in a scope. -/
def lookup (b : Builder) (id : ScopeId) (name : String) : Option Symbol :=
  (b.chain id).lookup name

def isVisible (b : Builder) (id : ScopeId) (s : Symbol) : Bool :=
  (b.chain id).isVisible s

/-- A scope as a fragment sees it. -/
def context (b : Builder) (id : ScopeId) : Fragment.Context where
  resolve := b.lookup id
  isVisible := b.isVisible id
  capturesAllowed := b.options.allowCaptures

end Builder

namespace Build

/-- The chain of a scope that has to exist. -/
def chain (id : ScopeId) : Build Chain := do
  match (← get).top.chain? id with
  | some c => return c
  | none => throw (.unknownScope id)

/-! ## Numbers -/

/-- A new scope, not in the tree yet. -/
def makeScope (role : ScopeRole) : Build Scope :=
  modifyGet fun b => (Scope.new b.scopeCount role, { b with scopeCount := b.scopeCount + 1 })

def makeSymbol (name : Option String) (ty : Ty) : Build Symbol :=
  modifyGet fun b => (⟨b.symbolCount, name, ty⟩, { b with symbolCount := b.symbolCount + 1 })

def makeLabelId : Build LabelId :=
  modifyGet fun b => (b.labelCount, { b with labelCount := b.labelCount + 1 })

def makeLabel : Build Label :=
  return Label.internal (← makeLabelId)

/-! ## Statements -/

def updateScope (id : ScopeId) (f : Scope → Scope) : Build Unit :=
  modify fun b => { b with top := b.top.update id f }

/-- Puts a statement at the end of a scope. -/
def push (id : ScopeId) (stmt : Stmt Scope) : Build Unit :=
  updateScope id (·.push stmt)

def pushNode (id : ScopeId) (n : Node) : Build Unit :=
  push id (.node n)

/-- Puts a construct at the end of a scope, and tells where it stands. -/
def pushConstruct (id : ScopeId) (stmt : Stmt Scope) : Build Site := do
  match (← get).top.find? id with
  | none => throw (.unknownScope id)
  | some s =>
    push id stmt
    return ⟨id, s.stmts.length⟩

/-- The construct that stands at a site. -/
def construct? (site : Site) : Build (Option (Stmt Scope)) := do
  return ((← get).top.find? site.scope).bind (·.stmts[site.index]?)

def replaceConstruct (site : Site) (stmt : Stmt Scope) : Build Unit :=
  updateScope site.scope fun s => { s with stmts := s.stmts.set site.index stmt }

/-! ## Names and types -/

/-- A name is taken for a scope if its chain or a scope inside of it has the name already. -/
def isTaken (id : ScopeId) (name : String) : Build Bool := do
  let c ← chain id
  let below := ((← get).top.find? id).any (·.hasNameInside name)
  return (c.lookup name).isSome || below

/-- Gives a scope a new symbol, which `add` puts into its frame. -/
def bind (id : ScopeId) (name : String) (ty : Ty) (add : Frame → Symbol → Frame) :
    Build Symbol := do
  if ← isTaken id name then
    throw (.nameConflict name)
  let s ← makeSymbol name ty
  updateScope id (·.modifyFrame (add · s))
  return s

/-- Gives a scope a new symbol before the scope is put into the scope around it. -/
def bindNew (outer : ScopeId) (scope : Scope) (name : String) (ty : Ty)
    (add : Frame → Symbol → Frame) : Build (Symbol × Scope) := do
  let c : Chain := scope.frame :: (← chain outer)
  if (c.lookup name).isSome || scope.hasNameInside name then
    throw (.nameConflict name)
  let s ← makeSymbol name ty
  return (s, scope.modifyFrame (add · s))

/-- The name must not have a meaning in the scope yet. -/
def requireFree (id : ScopeId) (name : String) (cause : BuildError) : Build Unit := do
  if ((← chain id).lookup name).isSome then
    throw cause

/-- Resolves a fragment in a scope, as if it were the first one there. -/
def resolve (id : ScopeId) (f : Fragment) : Build Expr := do
  let _ ← chain id
  MonadExcept.ofExcept (f.resolveIn ((← get).context id))

/-- A value fits a type if the type accepts that of the value; null fits wherever there are
references. -/
def requireType (expected : Ty) (e : Expr) : Build Unit := do
  unless (e.isNull && expected.isReference) || expected.accepts e.type do
    throw (.typeMismatch expected e.type)

end Build

namespace Builder

/-- Binds the parameters in their order. -/
def bindParams : List Placeholder → Build Unit
  | [] => return
  | p :: rest => do
    let s ← Build.bind topId p.name p.ty Frame.addImplicit
    modify fun b => { b with params := b.params ++ [s] }
    bindParams rest

/-- A builder for a program with the given parameters; their names have to differ. -/
def create (options : Options) (params : List Placeholder) (returnType : Ty) :
    Except BuildError Builder :=
  match bindParams params (empty options returnType) with
  | .ok _ b => .ok b
  | .error e _ => .error e

end Builder

end StructuredFlow
