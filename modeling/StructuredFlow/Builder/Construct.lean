import StructuredFlow.Builder

/-
  Constructs: statements with scopes inside of them. Opening a construct puts it into its scope at
  once; what is added to it later changes it in place. Every scope of a construct is around nothing
  but its own statements, so the parts of a construct do not see each other's variables.
-/

namespace StructuredFlow

namespace Build

/-- The construct at a site is not of the kind that the operation is for. -/
def noConstruct {α : Type} (site : Site) : Build α :=
  throw (.unknownScope site.scope)

/-- Resolves a condition. -/
def condition (id : ScopeId) (test : Fragment) : Build Expr := do
  let test ← resolve id test
  requireType .bool test
  return test

/-! ## Conditionals -/

def openIf (id : ScopeId) (test : Fragment) : Build (Site × ScopeId) := do
  let test ← condition id test
  let body ← makeScope .plain
  let site ← pushConstruct id (.conditional [(test, body)] none)
  return (site, body.frame.id)

def openElse (site : Site) : Build ScopeId := do
  match ← construct? site with
  | some (.conditional links none) =>
    let body ← makeScope .plain
    replaceConstruct site (.conditional links (some body))
    return body.frame.id
  | some (.conditional _ (some _)) => throw .alreadyHasAlternative
  | _ => noConstruct site

/-- A further test, which is resolved where the conditional stands. -/
def openElseIf (site : Site) (test : Fragment) : Build ScopeId := do
  match ← construct? site with
  | some (.conditional links none) =>
    let test ← condition site.scope test
    let body ← makeScope .plain
    replaceConstruct site (.conditional (links ++ [(test, body)]) none)
    return body.frame.id
  | some (.conditional _ (some _)) => throw .alreadyHasAlternative
  | _ => noConstruct site

/-! ## Loops -/

/-- A loop with a new body and labels; the third label is for an entry behind the condition. -/
def makeLoop (condition : Expr) : Build (Loop × Label × Scope) := do
  let next ← makeLabel
  let leave ← makeLabel
  let entry ← makeLabel
  let body ← makeScope (.loopBody leave next)
  return (⟨condition, leave, next⟩, entry, body)

def openWhile (id : ScopeId) (test : Fragment) : Build ScopeId := do
  let test ← condition id test
  let (l, _, body) ← makeLoop test
  push id (.loop l body)
  return body.frame.id

/-- The first round is entered by a jump over the condition to the start of the body. -/
def openDoWhile (id : ScopeId) (test : Fragment) : Build ScopeId := do
  let test ← condition id test
  let (l, entry, body) ← makeLoop test
  pushNode id (.goto entry none)
  push id (.loop l (body.push (.node (.label entry none))))
  return body.frame.id

/-- The iterator of a loop over a collection, the loop, and its body with the variable for the
elements. -/
def makeIteration (id : ScopeId) (name : String) (ty iteratorType : Ty) :
    Build (Symbol × Loop × Symbol × Scope) := do
  let iterator ← makeSymbol none iteratorType
  let (l, _, body) ← makeLoop (.intrinsic .moveNext [.var iterator])
  let (item, body) ← bindNew id body name ty Frame.addLocal
  return (iterator, l, item, body)

/-- A loop over the elements of a collection. An iterator without a name walks it; each round
begins by assigning the element, converted if the variable's type is another one. -/
def openForEach (id : ScopeId) (name : String) (ty : Ty) (collection : Fragment) :
    Build ScopeId := do
  let collection ← resolve id collection
  match collection.type.iteratorType? with
  | none => throw (.notIterable collection.type)
  | some iteratorType =>
    match iteratorType.elementType? with
    | none => throw (.notIterable collection.type)
    | some element =>
      unless element.convertsTo ty do
        throw (.typeMismatch ty element)
      requireFree id name (.nameConflict name)
      let (iterator, l, item, body) ← makeIteration id name ty iteratorType
      let current := .intrinsic .current [.var iterator]
      let current := if ty = element then current else .convert current ty
      push id (.iteration iterator collection l (body.push (.node (.assign item current))))
      return body.frame.id

/-! ## Switches -/

def openSwitch (id : ScopeId) (value : Fragment) : Build Site := do
  let value ← resolve id value
  pushConstruct id (.switch value [] none)

/-- A value to match, resolved where the switch stands, and of the type of its discriminant. -/
def matchValue (site : Site) (discriminant : Expr) (value : Fragment) : Build Expr := do
  let value ← resolve site.scope value
  requireType discriminant.type value
  return value

/-- A new group of values, without a body; gives the place of the group. -/
def openGroup (site : Site) (value : Fragment) : Build Nat := do
  match ← construct? site with
  | some (.switch discriminant groups default) =>
    let value ← matchValue site discriminant value
    replaceConstruct site (.switch discriminant (groups ++ [⟨[value], none⟩]) default)
    return groups.length
  | _ => noConstruct site

def widenGroup (site : Site) (group : Nat) (value : Fragment) : Build Unit := do
  match ← construct? site with
  | some (.switch discriminant groups default) =>
    let value ← matchValue site discriminant value
    let groups := groups.modify group fun g => { g with values := g.values ++ [value] }
    replaceConstruct site (.switch discriminant groups default)
  | _ => noConstruct site

/-- The body of a group; it is made the first time. -/
def openGroupBody (site : Site) (group : Nat) : Build ScopeId := do
  match ← construct? site with
  | some (.switch discriminant groups default) =>
    match groups[group]? with
    | none => noConstruct site
    | some ⟨_, some body⟩ => return body.frame.id
    | some ⟨values, none⟩ =>
      let body ← makeScope .plain
      replaceConstruct site (.switch discriminant (groups.set group ⟨values, some body⟩) default)
      return body.frame.id
  | _ => noConstruct site

def openDefault (site : Site) : Build ScopeId := do
  match ← construct? site with
  | some (.switch discriminant groups none) =>
    let body ← makeScope .plain
    let fall ← makeLabel
    replaceConstruct site (.switch discriminant groups (some (fall, body)))
    return body.frame.id
  | some (.switch _ _ (some _)) => throw .duplicateDefault
  | _ => noConstruct site

/-! ## Guarded regions -/

def openTry (id : ScopeId) : Build (Site × ScopeId) := do
  let _ ← chain id
  let body ← makeScope .plain
  let site ← pushConstruct id (.attempt body [] none)
  return (site, body.frame.id)

/-- The symbol that holds the exception, and the scope that owns it. -/
def bindException (id : ScopeId) (body : Scope) (kind : Ty) :
    Option String → Build (Option Symbol × Scope)
  | none => return (none, body)
  | some name => do
    let (s, body) ← bindNew id body name kind Frame.addImplicit
    return (some s, body)

/-- A handler with nothing in its body but the variable. -/
def makeHandler (id : ScopeId) (kind : Ty) (name : Option String) : Build (Handler Scope) := do
  let body ← makeScope .catchBody
  let (binding, body) ← bindException id body kind name
  return ⟨kind, binding, body⟩

/-- A handler for exceptions of a kind; its variable, if it has one, is new. -/
def openCatch (site : Site) (kind : Ty) (name : Option String) : Build ScopeId := do
  unless kind.isReference do
    throw (.typeMismatch .any kind)
  name.forM fun name => requireFree site.scope name (.duplicateVariable name)
  match ← construct? site with
  | some (.attempt body handlers cleanup) =>
    let handler ← makeHandler site.scope kind name
    replaceConstruct site (.attempt body (handlers ++ [handler]) cleanup)
    return handler.body.frame.id
  | _ => noConstruct site

def openFinally (site : Site) : Build ScopeId := do
  match ← construct? site with
  | some (.attempt body handlers none) =>
    let cleanup ← makeScope .plain
    replaceConstruct site (.attempt body handlers (some cleanup))
    return cleanup.frame.id
  | some (.attempt _ _ (some _)) => throw .duplicateFinally
  | _ => noConstruct site

/-- A guarded region is complete when something is done about exceptions. -/
def endTry (site : Site) : Build Unit := do
  match ← construct? site with
  | some (.attempt _ [] none) => throw .emptyTry
  | some (.attempt _ _ _) => return
  | _ => noConstruct site

/-! ## Resources -/

/-- The variable that holds a resource, and the scope that it is for. -/
def makeResource (id : ScopeId) (name : String) (ty : Ty) : Build (Symbol × Scope) := do
  let body ← makeScope .plain
  bindNew id body name ty Frame.addImplicit

/-- A region that disposes of a resource at its end. -/
def openUsing (id : ScopeId) (name : String) (ty : Ty) (producer : Fragment) : Build ScopeId := do
  let producer ← resolve id producer
  requireType ty producer
  requireFree id name (.nameConflict name)
  let (s, body) ← makeResource id name ty
  push id (.resource s producer body)
  return body.frame.id

end Build

end StructuredFlow
