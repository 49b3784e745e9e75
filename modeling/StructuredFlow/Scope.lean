import StructuredFlow.Node

/-
  Scopes under construction. A scope owns variables and holds statements in a row; a statement is
  a finished node, a jump to a label by name, or a construct whose parts are scopes again. So the
  scopes of a program form a tree, and `fold` is the one recursion over it: it replaces every
  scope, from the innermost outwards. Everything else about trees of scopes is said through
  `fold`.
-/

namespace StructuredFlow

abbrev ScopeId := Nat

/-- What a scope is for, as far as statements inside of it ask. -/
inductive ScopeRole where
  | plain
  | loopBody (leave next : Label)
  | catchBody
deriving DecidableEq, Repr, Inhabited

/-- A scope without its statements. The locals become variables of a block; the implicit symbols
are bound by something around the scope: parameters, exceptions and resources. -/
structure Frame where
  id : ScopeId
  role : ScopeRole
  locals : List Symbol
  implicit : List Symbol
deriving DecidableEq, Repr, Inhabited

/-- A round of a loop begins with the condition; two labels lead out of the loop and to its next
round. -/
structure Loop where
  condition : Expr
  leave : Label
  next : Label
deriving BEq, Repr, Inhabited

/-- A statement over scopes of some type. A conditional has a link for each test, in order. A
default comes with the label that empty groups of the switch jump to. -/
inductive Stmt (σ : Type) where
  | node (n : Node)
  | goto (name : String)
  | conditional (links : List (Expr × σ)) (otherwise : Option σ)
  | loop (l : Loop) (body : σ)
  | iteration (iterator : Symbol) (collection : Expr) (l : Loop) (body : σ)
  | switch (value : Expr) (groups : List (Arm (Option σ))) (default : Option (Label × σ))
  | attempt (body : σ) (handlers : List (Handler σ)) (cleanup : Option σ)
  | resource (symbol : Symbol) (producer : Expr) (body : σ)
deriving Repr, Inhabited

structure Scope where
  frame : Frame
  stmts : List (Stmt Scope)
deriving Repr, Inhabited

namespace Stmt

variable {σ τ : Type}

/-- The scopes of a statement, in the order in which they are written. -/
def scopes : Stmt σ → List σ
  | node _ | goto _ => []
  | conditional links otherwise => links.map Prod.snd ++ otherwise.toList
  | loop _ body | iteration _ _ _ body | resource _ _ body => [body]
  | switch _ groups default => groups.filterMap Arm.body ++ (default.map Prod.snd).toList
  | attempt body handlers cleanup => body :: (handlers.map Handler.body ++ cleanup.toList)

/-- Replaces every scope of a statement. -/
def map (f : σ → τ) : Stmt σ → Stmt τ
  | node n => node n
  | goto name => goto name
  | conditional links otherwise => conditional (links.map fun l => (l.1, f l.2)) (otherwise.map f)
  | loop l body => loop l (f body)
  | iteration iterator collection l body => iteration iterator collection l (f body)
  | switch value groups default =>
    switch value (groups.map fun g => ⟨g.values, g.body.map f⟩) (default.map fun d => (d.1, f d.2))
  | attempt body handlers cleanup =>
    attempt (f body) (handlers.map fun h => ⟨h.kind, h.binding, f h.body⟩) (cleanup.map f)
  | resource symbol producer body => resource symbol producer (f body)

theorem scopes_map (f : σ → τ) (s : Stmt σ) : (s.map f).scopes = s.scopes.map f := by
  cases s with
  | switch value groups default =>
    simp only [map, scopes, List.map_append, List.filterMap_map, List.map_filterMap]
    congr 1
    cases default <;> rfl
  | conditional links otherwise => cases otherwise <;> simp [map, scopes, Function.comp_def]
  | attempt body handlers cleanup => cases cleanup <;> simp [map, scopes, Function.comp_def]
  | _ => simp [map, scopes]

theorem map_id (s : Stmt σ) : s.map id = s := by
  cases s <;> simp [map]

theorem map_map {υ : Type} (f : σ → τ) (g : τ → υ) (s : Stmt σ) :
    (s.map f).map g = s.map (g ∘ f) := by
  cases s <;> simp [map, Function.comp_def]

end Stmt

namespace Scope

variable {α : Type}

mutual

/-- Replaces each scope of a tree by what the function makes of its frame and its statements, in
which the scopes are replaced already. -/
def fold (f : Frame → List (Stmt α) → α) : Scope → α
  | ⟨frame, stmts⟩ => f frame (foldStmts f stmts)

def foldStmts (f : Frame → List (Stmt α) → α) : List (Stmt Scope) → List (Stmt α)
  | [] => []
  | s :: rest => foldStmt f s :: foldStmts f rest

def foldStmt (f : Frame → List (Stmt α) → α) : Stmt Scope → Stmt α
  | .node n => .node n
  | .goto name => .goto name
  | .conditional links none => .conditional (foldLinks f links) none
  | .conditional links (some s) => .conditional (foldLinks f links) (some (s.fold f))
  | .loop l body => .loop l (body.fold f)
  | .iteration iterator collection l body => .iteration iterator collection l (body.fold f)
  | .switch value groups none => .switch value (foldGroups f groups) none
  | .switch value groups (some (l, s)) => .switch value (foldGroups f groups) (some (l, s.fold f))
  | .attempt body handlers none => .attempt (body.fold f) (foldHandlers f handlers) none
  | .attempt body handlers (some s) =>
    .attempt (body.fold f) (foldHandlers f handlers) (some (s.fold f))
  | .resource symbol producer body => .resource symbol producer (body.fold f)

def foldLinks (f : Frame → List (Stmt α) → α) : List (Expr × Scope) → List (Expr × α)
  | [] => []
  | (test, s) :: rest => (test, s.fold f) :: foldLinks f rest

def foldGroups (f : Frame → List (Stmt α) → α) : List (Arm (Option Scope)) → List (Arm (Option α))
  | [] => []
  | ⟨values, none⟩ :: rest => ⟨values, none⟩ :: foldGroups f rest
  | ⟨values, some s⟩ :: rest => ⟨values, some (s.fold f)⟩ :: foldGroups f rest

def foldHandlers (f : Frame → List (Stmt α) → α) : List (Handler Scope) → List (Handler α)
  | [] => []
  | ⟨kind, binding, s⟩ :: rest => ⟨kind, binding, s.fold f⟩ :: foldHandlers f rest

end

theorem foldLinks_eq_map (f : Frame → List (Stmt α) → α) (links : List (Expr × Scope)) :
    foldLinks f links = links.map fun l => (l.1, l.2.fold f) := by
  induction links with
  | nil => rfl
  | cons l links ih => simp [foldLinks, ih]

theorem foldGroups_eq_map (f : Frame → List (Stmt α) → α) (groups : List (Arm (Option Scope))) :
    foldGroups f groups = groups.map fun g => ⟨g.values, g.body.map (fold f)⟩ := by
  induction groups with
  | nil => rfl
  | cons g groups ih =>
    obtain ⟨values, body⟩ := g
    cases body <;> simp [foldGroups, ih]

theorem foldHandlers_eq_map (f : Frame → List (Stmt α) → α) (handlers : List (Handler Scope)) :
    foldHandlers f handlers = handlers.map fun h => ⟨h.kind, h.binding, h.body.fold f⟩ := by
  induction handlers with
  | nil => rfl
  | cons h handlers ih => simp [foldHandlers, ih]

theorem foldStmt_eq_map (f : Frame → List (Stmt α) → α) (s : Stmt Scope) :
    foldStmt f s = s.map (fold f) := by
  cases s with
  | conditional links otherwise =>
    cases otherwise <;> simp [foldStmt, Stmt.map, foldLinks_eq_map]
  | switch value groups default =>
    cases default <;> simp [foldStmt, Stmt.map, foldGroups_eq_map]
  | attempt body handlers cleanup =>
    cases cleanup <;> simp [foldStmt, Stmt.map, foldHandlers_eq_map]
  | _ => simp [foldStmt, Stmt.map]

theorem foldStmts_eq_map (f : Frame → List (Stmt α) → α) (stmts : List (Stmt Scope)) :
    foldStmts f stmts = stmts.map (Stmt.map (fold f)) := by
  induction stmts with
  | nil => rfl
  | cons s stmts ih => simp [foldStmts, ih, foldStmt_eq_map]

/-- The equation of `fold`. -/
theorem fold_mk (f : Frame → List (Stmt α) → α) (frame : Frame) (stmts : List (Stmt Scope)) :
    fold f ⟨frame, stmts⟩ = f frame (stmts.map (Stmt.map (fold f))) := by
  rw [fold, foldStmts_eq_map]

end Scope

end StructuredFlow
