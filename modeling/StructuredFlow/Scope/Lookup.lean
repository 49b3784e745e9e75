import StructuredFlow.Scope

/-
  Finding things in a tree of scopes. What is visible from a scope is owned by a frame on its
  chain: its own, that of the scope around it, and so on outwards. What a new name must not hide
  may also be owned below the scope.
-/

namespace StructuredFlow

namespace Frame

/-- All symbols of a scope, the locals first. -/
def symbols (f : Frame) : List Symbol :=
  f.locals ++ f.implicit

def named? (f : Frame) (name : String) : Option Symbol :=
  f.symbols.find? (·.isNamed name)

def owns (f : Frame) (s : Symbol) : Bool :=
  f.symbols.any (·.id == s.id)

def addLocal (f : Frame) (s : Symbol) : Frame :=
  { f with locals := f.locals ++ [s] }

def addImplicit (f : Frame) (s : Symbol) : Frame :=
  { f with implicit := f.implicit ++ [s] }

/-- The two labels of the loop whose body the scope is. -/
def loopLabels? (f : Frame) : Option (Label × Label) :=
  match f.role with
  | .loopBody leave next => some (leave, next)
  | _ => none

def isCatchBody (f : Frame) : Bool :=
  f.role == .catchBody

end Frame

/-- The frames from a scope outwards, its own first. -/
abbrev Chain := List Frame

namespace Chain

/-- The innermost symbol of a name. -/
def lookup (c : Chain) (name : String) : Option Symbol :=
  c.findSome? (·.named? name)

def isVisible (c : Chain) (s : Symbol) : Bool :=
  c.any (·.owns s)

/-- The labels of the innermost loop around. -/
def loopLabels? (c : Chain) : Option (Label × Label) :=
  c.findSome? Frame.loopLabels?

/-- There is an exception to raise again: the chain leads through the body of a handler. -/
def inCatch (c : Chain) : Bool :=
  c.any Frame.isCatchBody

end Chain

namespace Scope

/-- A scope with nothing in it. -/
def new (id : ScopeId) (role : ScopeRole) : Scope :=
  ⟨⟨id, role, [], []⟩, []⟩

def push (s : Scope) (stmt : Stmt Scope) : Scope :=
  { s with stmts := s.stmts ++ [stmt] }

def modifyFrame (f : Frame → Frame) (s : Scope) : Scope :=
  { s with frame := f s.frame }

/-- The frames of a scope and all scopes in it, each before those in it. -/
def frames : Scope → List Frame :=
  fold fun frame stmts => frame :: (stmts.flatMap Stmt.scopes).flatten

/-- A scope and all scopes in it, each before those in it. -/
def subscopes (s : Scope) : List Scope :=
  (s.fold fun frame stmts =>
    let s : Scope := ⟨frame, stmts.map (Stmt.map Prod.fst)⟩
    (s, s :: (stmts.flatMap Stmt.scopes).flatMap Prod.snd)).2

def find? (id : ScopeId) (s : Scope) : Option Scope :=
  s.subscopes.find? (·.frame.id == id)

/-- The chain of the scope with the given number. -/
def chain? (id : ScopeId) : Scope → Option Chain :=
  fold fun frame stmts =>
    if frame.id = id then some [frame]
    else ((stmts.flatMap Stmt.scopes).findSome? fun c => c).map (· ++ [frame])

/-- Changes the scope with the given number. -/
def update (id : ScopeId) (f : Scope → Scope) : Scope → Scope :=
  fold fun frame stmts => if frame.id = id then f ⟨frame, stmts⟩ else ⟨frame, stmts⟩

/-- A scope inside of the scope, at any depth, owns the name. -/
def hasNameInside (s : Scope) (name : String) : Bool :=
  s.frames.tail.any fun f => (f.named? name).isSome

/-- The scopes directly inside of statements in which each scope has been replaced. -/
theorem flatMap_scopes_map {σ τ : Type} (f : σ → τ) (stmts : List (Stmt σ)) :
    (stmts.map (Stmt.map f)).flatMap Stmt.scopes = (stmts.flatMap Stmt.scopes).map f := by
  simp [List.flatMap_map, Stmt.scopes_map, List.map_flatMap]

theorem frames_mk (frame : Frame) (stmts : List (Stmt Scope)) :
    (mk frame stmts).frames = frame :: (stmts.flatMap Stmt.scopes).flatMap frames := by
  simp only [frames, fold_mk, flatMap_scopes_map]
  rfl

theorem chain?_mk (id : ScopeId) (frame : Frame) (stmts : List (Stmt Scope)) :
    (mk frame stmts).chain? id =
      if frame.id = id then some [frame]
      else ((stmts.flatMap Stmt.scopes).findSome? (chain? id)).map (· ++ [frame]) := by
  simp only [chain?, fold_mk, flatMap_scopes_map, List.findSome?_map]
  rfl

theorem update_mk (id : ScopeId) (f : Scope → Scope) (frame : Frame) (stmts : List (Stmt Scope)) :
    (mk frame stmts).update id f =
      if frame.id = id then f ⟨frame, stmts.map (Stmt.map (update id f))⟩
      else ⟨frame, stmts.map (Stmt.map (update id f))⟩ :=
  fold_mk _ _ _

end Scope

end StructuredFlow
