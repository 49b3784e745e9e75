import StructuredFlow.Fragment
import StructuredFlow.BuildError

/-
  Resolving a fragment in a scope: each placeholder becomes the variable that its name has there.
  A variable that the fragment already holds has to be visible, or is a capture, which the scope
  may forbid. What has been bound and captured is kept from one fragment to the next, and also
  when a fragment is refused part-way.
-/

namespace StructuredFlow

/-- A scope as a fragment sees it. -/
structure Fragment.Context where
  resolve : String → Option Symbol
  isVisible : Symbol → Bool
  capturesAllowed : Bool

namespace Fragment.Context

/-- The scope that shows the given symbols; the first one of a name stands for the name. -/
def ofSymbols (symbols : List Symbol) (capturesAllowed : Bool) : Fragment.Context where
  resolve name := symbols.find? (·.isNamed name)
  isVisible s := symbols.any (·.id == s.id)
  capturesAllowed := capturesAllowed

end Fragment.Context

/-- The names bound so far, the last one first, and the symbols captured so far, in order. -/
structure Resolution where
  bindings : List (String × Symbol)
  captures : List Symbol
deriving Repr, Inhabited

namespace Resolution

def empty : Resolution :=
  ⟨[], []⟩

def symbol? (r : Resolution) (name : String) : Option Symbol :=
  r.bindings.lookup name

def insert (r : Resolution) (name : String) (s : Symbol) : Resolution :=
  { r with bindings := (name, s) :: r.bindings }

/-- Notes a captured symbol, once for each number. -/
def capture (r : Resolution) (s : Symbol) : Resolution :=
  if r.captures.any (·.id == s.id) then r else { r with captures := r.captures ++ [s] }

theorem symbol?_insert (r : Resolution) (name : String) (s : Symbol) (name' : String) :
    (r.insert name s).symbol? name' = if name' = name then some s else r.symbol? name' := by
  by_cases h : name' = name <;> simp [symbol?, insert, List.lookup_cons, h, beq_false_of_ne]

@[simp] theorem captures_insert (r : Resolution) (name : String) (s : Symbol) :
    (r.insert name s).captures = r.captures := rfl

@[simp] theorem bindings_capture (r : Resolution) (s : Symbol) :
    (r.capture s).bindings = r.bindings := by
  unfold capture; split <;> rfl

end Resolution

abbrev Resolving := EStateM BuildError Resolution

/-- The type that a symbol has must be the type that the placeholder expects. -/
def Placeholder.check (p : Placeholder) (found : Option Symbol) : Except BuildError Symbol :=
  match found with
  | none => .error (.unboundPlaceholder p.name)
  | some s =>
    if s.ty = p.ty then .ok s else .error (.placeholderTypeMismatch p.name p.ty s.ty)

namespace Placeholder

/-- Binds a listed placeholder to what its name stands for in the scope. -/
def bind (scope : Fragment.Context) (p : Placeholder) : Resolving Unit := do
  let s ← MonadExcept.ofExcept (p.check (scope.resolve p.name))
  modify (·.insert p.name s)

/-- The variable in place of a placeholder: what its name was bound to. -/
def resolve (p : Placeholder) : Resolving Expr := do
  let s ← MonadExcept.ofExcept (p.check ((← get).symbol? p.name))
  return .var s

end Placeholder

namespace Symbol

/-- A variable that a fragment holds already is visible, or captured if the scope allows it. -/
def resolve (scope : Fragment.Context) (s : Symbol) : Resolving Expr := do
  if scope.isVisible s then
    return .var s
  if !scope.capturesAllowed then
    throw (.unauthorizedCapture s.render)
  modify (·.capture s)
  return .var s

end Symbol

namespace Expr

mutual

/-- Resolves an expression from left to right; nothing but placeholders changes. -/
def resolve (scope : Fragment.Context) : Expr → Resolving Expr
  | const c => return const c
  | param p => p.resolve
  | var s => s.resolve scope
  | unary op operand => return unary op (← operand.resolve scope)
  | binary op left right => return binary op (← left.resolve scope) (← right.resolve scope)
  | convert operand ty => return convert (← operand.resolve scope) ty
  | intrinsic op args => return intrinsic op (← resolveAll scope args)
  | call function args ty => return call function (← resolveAll scope args) ty
  | construct ty args => return construct ty (← resolveAll scope args)
  | list elem items => return list elem (← resolveAll scope items)

def resolveAll (scope : Fragment.Context) : List Expr → Resolving (List Expr)
  | [] => return []
  | e :: rest => return (← e.resolve scope) :: (← resolveAll scope rest)

end

end Expr

namespace Fragment

/-- Binds the listed placeholders in their order, then resolves the body. -/
def resolve (scope : Fragment.Context) (f : Fragment) : Resolving Expr := do
  f.params.forM (·.bind scope)
  f.body.resolve scope

/-- Resolves a fragment on its own, where nothing has been bound before. -/
def resolveIn (scope : Fragment.Context) (f : Fragment) : Except BuildError Expr :=
  match (f.resolve scope).run Resolution.empty with
  | .ok e _ => .ok e
  | .error e _ => .error e

end Fragment

end StructuredFlow
