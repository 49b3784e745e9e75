import StructuredFlow.Builder.Statement
import StructuredFlow.Builder.Construct
import StructuredFlow.Assembly

/-
  Building by commands. A session has a builder and the handles of the constructs that are open,
  one inside the other; a command goes to the innermost handle, or to the body of the program if
  none is open. Each kind of handle offers some of the commands. A statement that is refused
  leaves the handles as they are; a step of a construct that is refused costs the construct's
  handle.
-/

namespace StructuredFlow

/-- A construct that can be opened. -/
inductive Opening where
  | ifTest (test : Fragment)
  | whileTest (test : Fragment)
  | doWhile (test : Fragment)
  | forEach (name : String) (ty : Ty) (collection : Fragment)
  | switchOn (value : Fragment)
  | guarded
  | using (name : String) (ty : Ty) (producer : Fragment)
deriving Repr, Inhabited

/-- What can be done with an open construct. -/
inductive Step where
  | finish
  | otherwise
  | otherwiseIf (test : Fragment)
  | handler (kind : Ty) (name : Option String)
  | cleanup
  | case (value : Fragment)
  | caseBody
  | default
deriving Repr, Inhabited

inductive Command where
  | statement (s : Statement)
  | opening (o : Opening)
  | step (s : Step)
  | top
deriving Repr, Inhabited

/-- An open construct: where it stands, and the scope that statements go to. -/
inductive Handle where
  | branch (site : Site) (scope : ScopeId)
  | loop (scope : ScopeId)
  | switch (site : Site)
  | case (site : Site) (group : Nat)
  | caseBody (site : Site) (scope : ScopeId)
  | guarded (site : Site) (scope : ScopeId)
  | resource (scope : ScopeId)
deriving DecidableEq, Repr, Inhabited

namespace Handle

/-- The scope that statements go to; a switch between its bodies has none. -/
def scope? : Handle → Option ScopeId
  | branch _ id | loop id | caseBody _ id | guarded _ id | resource id => some id
  | switch _ | case _ _ => none

end Handle

namespace Build

/-- Opens a construct at the end of a scope. -/
def opening (id : ScopeId) : Opening → Build Handle
  | .ifTest test => do
    let (site, body) ← openIf id test
    return .branch site body
  | .whileTest test => return .loop (← openWhile id test)
  | .doWhile test => return .loop (← openDoWhile id test)
  | .forEach name ty collection => return .loop (← openForEach id name ty collection)
  | .switchOn value => return .switch (← openSwitch id value)
  | .guarded => do
    let (site, body) ← openTry id
    return .guarded site body
  | .using name ty producer => return .resource (← openUsing id name ty producer)

/-- The handle that a step leaves in place of the handle it is taken on, if it leaves one; a step
that the handle does not offer is none at all. -/
def step? : Handle → Step → Option (Build (Option Handle))
  | .branch site _, .otherwise => some do return some (.branch site (← openElse site))
  | .branch site _, .otherwiseIf test => some do return some (.branch site (← openElseIf site test))
  | .switch site, .case value => some do return some (.case site (← openGroup site value))
  | .switch site, .default => some do return some (.caseBody site (← openDefault site))
  | .case site group, .case value => some do
    widenGroup site group value
    return some (.case site group)
  | .case site group, .caseBody => some do return some (.caseBody site (← openGroupBody site group))
  | .guarded site _, .handler kind name => some do
    return some (.guarded site (← openCatch site kind name))
  | .guarded site _, .cleanup => some do return some (.guarded site (← openFinally site))
  | .guarded site _, .finish => some do
    endTry site
    return none
  | .case site _, .finish | .caseBody site _, .finish => some (return some (.switch site))
  | .branch _ _, .finish | .loop _, .finish | .switch _, .finish | .resource _, .finish =>
    some (return none)
  | _, _ => none

end Build

/-- A builder and the handles of its open constructs, the innermost first. -/
structure Session where
  builder : Builder
  handles : List Handle
deriving Repr, Inhabited

/-- How a command ends: it is done, it is refused for a cause, or the current handle does not offer
it. -/
inductive Outcome where
  | done
  | refused (e : BuildError)
  | notOffered
deriving DecidableEq, Repr, Inhabited

namespace Session

/-- A session at the body of a program. -/
def start (b : Builder) : Session :=
  ⟨b, []⟩

/-- The scope that statements go to at present. -/
def scope? (s : Session) : Option ScopeId :=
  match s.handles with
  | [] => some Builder.topId
  | h :: _ => h.scope?

/-- The symbol that a name stands for at present. -/
def symbol? (s : Session) (name : String) : Option Symbol :=
  s.scope?.bind (s.builder.lookup · name)

/-- Runs an operation; `onDone` and `refused` are the handles after it. -/
def run {α : Type} (s : Session) (x : Build α) (onDone : α → List Handle) (refused : List Handle) :
    Outcome × Session :=
  match x s.builder with
  | .ok a b => (.done, ⟨b, onDone a⟩)
  | .error e b => (.refused e, ⟨b, refused⟩)

def command (s : Session) : Command → Outcome × Session
  | .top => (.done, { s with handles := [] })
  | .statement stmt =>
    match s.scope? with
    | some id => s.run (Build.statement id stmt) (fun _ => s.handles) s.handles
    | none => (.notOffered, s)
  | .opening o =>
    match s.scope? with
    | some id => s.run (Build.opening id o) (· :: s.handles) s.handles
    | none => (.notOffered, s)
  | .step step =>
    match s.handles, step with
    | [], .finish => (.done, s)
    | [], _ => (.notOffered, s)
    | h :: rest, step =>
      match Build.step? h step with
      | some x => s.run x (fun next => next.toList ++ rest) rest
      | none => (.notOffered, s)

end Session

end StructuredFlow
