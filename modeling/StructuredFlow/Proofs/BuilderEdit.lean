import StructuredFlow.Assembly
import StructuredFlow.Proofs.BuildOutcome
import StructuredFlow.Proofs.FragmentVariables
import StructuredFlow.Proofs.FragmentsKept
import StructuredFlow.Proofs.ScopeTree

/-
  All that operations do to a builder. A statement is added to a scope (`Builder.Adds` lists the
  statements and what was checked for each), a construct grows in its place (`Builder.Grows`), a
  scope gets a variable, or the program gets a parameter; these are the edits, and a builder that
  edits lead to from an empty one is `Built`. What every edit keeps holds of every builder. Each of
  these is relative to what is known of the fragments that the operations are given (`F`).
-/

namespace StructuredFlow

/-- A chain as a fragment sees it. -/
def Chain.context (c : Chain) (capturesAllowed : Bool) : Fragment.Context :=
  ⟨c.lookup, c.isVisible, capturesAllowed⟩

namespace Builder

open Build (Suits)

/-- The expression is what some fragment resolves to where the chain starts from; `F` holds of the
fragment. -/
def Settles (F : Fragment → Prop) (b : Builder) (c : Chain) (e : Expr) : Prop :=
  ∃ f, F f ∧ f.resolveIn (c.context b.options.allowCaptures) = .ok e

theorem Settles.closed {F : Fragment → Prop} {b : Builder} {c : Chain} {e : Expr}
    (h : b.Settles F c e) : e.Closed (c.context b.options.allowCaptures) := by
  obtain ⟨f, -, hf⟩ := h
  exact Fragment.resolveIn_closed hf

/-- A fragment resolves to the same along a chain that keeps all meanings. -/
theorem Settles.kept {F : Fragment → Prop} {b : Builder} {c c' : Chain} {e : Expr}
    (h : b.Settles F c e) (kept : (c.context b.options.allowCaptures).Kept
      (c'.context b.options.allowCaptures)) : b.Settles F c' e := by
  obtain ⟨f, hf, hresolve⟩ := h
  exact ⟨f, hf, kept.resolveIn hresolve⟩

/-! ## Numbers given out -/

/-- The builder after it has given out numbers for scopes, symbols and labels. -/
def taking (b : Builder) (scopes symbols labels : Nat) : Builder :=
  { b with
    scopeCount := b.scopeCount + scopes
    symbolCount := b.symbolCount + symbols
    labelCount := b.labelCount + labels }

/-- The next scope. -/
def newScope (b : Builder) (role : ScopeRole) : Scope :=
  Scope.new b.scopeCount role

/-- The next named symbol; `skip` numbers go to others before. -/
def newSymbol (b : Builder) (skip : Nat) (name : String) (ty : Ty) : Symbol :=
  ⟨b.symbolCount + skip, some name, ty⟩

/-- The next loop: its labels are the next two. -/
def newLoop (b : Builder) (condition : Expr) : Loop :=
  ⟨condition, Label.internal (b.labelCount + 1), Label.internal b.labelCount⟩

/-- The label behind those of the next loop. -/
def newEntry (b : Builder) : Label :=
  Label.internal (b.labelCount + 2)

/-- The body of the next loop. -/
def newBody (b : Builder) : Scope :=
  b.newScope (.loopBody (Label.internal (b.labelCount + 1)) (Label.internal b.labelCount))

/-- The variable without a name that walks the next collection. -/
def newIterator (b : Builder) (ty : Ty) : Symbol :=
  ⟨b.symbolCount, none, ty⟩

/-- The element that an iterator stands at, in the type of the variable for it. -/
def currentOf (iterator : Symbol) (element ty : Ty) : Expr :=
  let current := .intrinsic .current [.var iterator]
  if ty = element then current else .convert current ty

/-- The body of the next iteration: its variable, and the statement that assigns the element. -/
def newIterationBody (b : Builder) (name : String) (iteratorType element ty : Ty) : Scope :=
  let item := b.newSymbol 1 name ty
  (b.newBody.modifyFrame (·.addLocal item)).push
    (.node (.assign item (currentOf (b.newIterator iteratorType) element ty)))

/-- The next scope with a variable that belongs to the construct around it. -/
def newScopeWith (b : Builder) (role : ScopeRole) (name : String) (ty : Ty) : Scope :=
  (b.newScope role).modifyFrame (·.addImplicit (b.newSymbol 0 name ty))

/-! ## Edits -/

/-- Statements that an operation adds at the end of a scope with the given chain, and the builder
with the numbers taken for them. -/
inductive Adds (F : Fragment → Prop) (b : Builder) (c : Chain) : List (Stmt Scope) → Builder → Prop
  | assign {name target value} (visible : c.lookup name = some target)
      (settled : b.Settles F c value) (suits : Suits target.ty value) :
      Adds F b c [.node (.assign target value)] b
  | act {value} (settled : b.Settles F c value) : Adds F b c [.node (.eval value)] b
  | jump {leave next} (loop : c.loopLabels? = some (leave, next)) (jump : LoopTarget) :
      Adds F b c [.node (.goto (match jump with | .leave => leave | .next => next) none)] b
  | returnValue {value} (settled : b.Settles F c value)
      (suits : value.isNull = true ∧ b.returnType.isReference = true ∨ value.type = b.returnType) :
      Adds F b c [.node (.goto b.returnLabel (some value))] b
  | returnVoid (void : b.returnType = .void) : Adds F b c [.node (.goto b.returnLabel none)] b
  | goto (name : String) : Adds F b c [.goto name] b
  | label {name} (new : b.label? name = none) :
      Adds F b c [.node (.label (Label.named b.labelCount name) none)]
        { b.taking 0 0 1 with labels := b.labels ++ [Label.named b.labelCount name] }
  | throw {value} (settled : b.Settles F c value) (reference : value.type.isReference = true) :
      Adds F b c [.node (.throw value)] b
  | rethrow (handler : c.inCatch = true) : Adds F b c [.node .rethrow] b
  | conditional {test} (settled : b.Settles F c test) (suits : Suits .bool test) :
      Adds F b c [.conditional [(test, b.newScope .plain)] none] (b.taking 1 0 0)
  | whileLoop {test} (settled : b.Settles F c test) (suits : Suits .bool test) :
      Adds F b c [.loop (b.newLoop test) b.newBody] (b.taking 1 0 3)
  | doWhile {test} (settled : b.Settles F c test) (suits : Suits .bool test) :
      Adds F b c
        [.node (.goto b.newEntry none),
          .loop (b.newLoop test) (b.newBody.push (.node (.label b.newEntry none)))]
        (b.taking 1 0 3)
  | iteration {collection name iteratorType element ty} (settled : b.Settles F c collection)
      (iterable : collection.type.iteratorType? = some iteratorType)
      (yields : iteratorType.elementType? = some element) (converts : element.convertsTo ty = true)
      (new : c.lookup name = none) :
      Adds F b c
        [.iteration (b.newIterator iteratorType) collection
          (b.newLoop (.intrinsic .moveNext [.var (b.newIterator iteratorType)]))
          (b.newIterationBody name iteratorType element ty)]
        (b.taking 1 2 3)
  | switch {value} (settled : b.Settles F c value) : Adds F b c [.switch value [] none] b
  | attempt : Adds F b c [.attempt (b.newScope .plain) [] none] (b.taking 1 0 0)
  | resource {name ty producer} (settled : b.Settles F c producer) (suits : Suits ty producer)
      (new : c.lookup name = none) :
      Adds F b c
        [.resource (b.newSymbol 0 name ty) producer (b.newScopeWith .plain name ty)]
        (b.taking 1 1 0)

/-- What an operation makes of a construct in a scope with the given chain, and the builder with
the numbers taken for it. -/
inductive Grows (F : Fragment → Prop) (b : Builder) (c : Chain) :
    Stmt Scope → Stmt Scope → Builder → Prop
  | otherwise {links} :
      Grows F b c (.conditional links none) (.conditional links (some (b.newScope .plain)))
        (b.taking 1 0 0)
  | link {links test} (settled : b.Settles F c test) (suits : Suits .bool test) :
      Grows F b c (.conditional links none)
        (.conditional (links ++ [(test, b.newScope .plain)]) none) (b.taking 1 0 0)
  | group {discriminant groups default value} (settled : b.Settles F c value)
      (suits : Suits discriminant.type value) :
      Grows F b c (.switch discriminant groups default)
        (.switch discriminant (groups ++ [⟨[value], none⟩]) default) b
  | widen {discriminant groups default value} (group : Nat) (settled : b.Settles F c value)
      (suits : Suits discriminant.type value) :
      Grows F b c (.switch discriminant groups default)
        (.switch discriminant
          (groups.modify group fun g => { g with values := g.values ++ [value] }) default) b
  | groupBody {discriminant groups default values} {group : Nat}
      (place : groups[group]? = some ⟨values, none⟩) :
      Grows F b c (.switch discriminant groups default)
        (.switch discriminant (groups.set group ⟨values, some (b.newScope .plain)⟩) default)
        (b.taking 1 0 0)
  | default {discriminant groups} :
      Grows F b c (.switch discriminant groups none)
        (.switch discriminant groups
          (some (Label.internal b.labelCount, b.newScope .plain))) (b.taking 1 0 1)
  | handler {body handlers cleanup kind} (reference : kind.isReference = true) :
      Grows F b c (.attempt body handlers cleanup)
        (.attempt body (handlers ++ [⟨kind, none, b.newScope .catchBody⟩]) cleanup)
        (b.taking 1 0 0)
  | handlerWith {body handlers cleanup kind name} (reference : kind.isReference = true)
      (new : c.lookup name = none) :
      Grows F b c (.attempt body handlers cleanup)
        (.attempt body (handlers ++ [⟨kind, some (b.newSymbol 0 name kind),
          b.newScopeWith .catchBody name kind⟩]) cleanup)
        (b.taking 1 1 0)
  | cleanup {body handlers} :
      Grows F b c (.attempt body handlers none)
        (.attempt body handlers (some (b.newScope .plain))) (b.taking 1 0 0)

/-- The builder with one scope changed. -/
def changing (b : Builder) (id : ScopeId) (f : Scope → Scope) : Builder :=
  { b with top := b.top.update id f }

/-- The change of a scope that gives it a variable of its own. -/
def addLocal (x : Symbol) : Scope → Scope :=
  Scope.modifyFrame (·.addLocal x)

/-- The change of a scope that gives it a variable of the construct around. -/
def addImplicit (x : Symbol) : Scope → Scope :=
  Scope.modifyFrame (·.addImplicit x)

/-- The change of a scope that adds statements at its end. -/
def addStmts (stmts : List (Stmt Scope)) (s : Scope) : Scope :=
  { s with stmts := s.stmts ++ stmts }

/-- The change of a scope that puts a statement in the place of another one. -/
def setStmt (index : Nat) (stmt : Stmt Scope) (s : Scope) : Scope :=
  { s with stmts := s.stmts.set index stmt }

/-- One edit of a builder, at a scope that stands in it. -/
inductive Edit (F : Fragment → Prop) (b : Builder) : Builder → Prop
  | param {name ty} (new : Chain.lookup [b.top.frame] name = none)
      (newInside : b.top.hasNameInside name = false) :
      Edit F b { (b.taking 0 1 0).changing b.top.frame.id (addImplicit (b.newSymbol 0 name ty)) with
        params := b.params ++ [b.newSymbol 0 name ty] }
  | declare {outer s name ty} (place : b.top.Within outer s)
      (new : Chain.lookup (s.frame :: outer) name = none)
      (newInside : s.hasNameInside name = false) :
      Edit F b ((b.taking 0 1 0).changing s.frame.id (addLocal (b.newSymbol 0 name ty)))
  | add {outer s stmts b'} (place : b.top.Within outer s)
      (adds : b.Adds F (s.frame :: outer) stmts b') :
      Edit F b (b'.changing s.frame.id (addStmts stmts))
  | grow {outer s index old new b'} (place : b.top.Within outer s)
      (standing : s.stmts[index]? = some old) (grows : b.Grows F (s.frame :: outer) old new b') :
      Edit F b (b'.changing s.frame.id (setStmt index new))

/-- A builder that edits lead to from an empty one. -/
inductive Built (F : Fragment → Prop) : Builder → Prop
  | empty (options : Options) (returnType : Ty) : Built F (Builder.empty options returnType)
  | edit {b b'} (built : Built F b) (edit : b.Edit F b') : Built F b'

/-- A builder that edits lead to from another one. -/
inductive Edits (F : Fragment → Prop) (b : Builder) : Builder → Prop
  | refl : Edits F b b
  | edit {b' b''} (edits : Edits F b b') (edit : b'.Edit F b'') : Edits F b b''

variable {F : Fragment → Prop} {b b' b'' : Builder}

theorem Edit.edits (h : b.Edit F b') : b.Edits F b' :=
  .edit .refl h

theorem Edits.trans (h : b.Edits F b') (h' : b'.Edits F b'') :
    b.Edits F b'' := by
  induction h' with
  | refl => exact h
  | edit _ edit ih => exact ih.edit edit

theorem Built.edits (hb : b.Built F) (h : b.Edits F b') : b'.Built F := by
  induction h with
  | refl => exact hb
  | edit _ edit ih => exact ih.edit edit

end Builder

end StructuredFlow
