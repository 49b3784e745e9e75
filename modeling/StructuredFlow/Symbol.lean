import StructuredFlow.Ty

/-
  Symbols and labels. A symbol stands for a variable and a label for a place that a jump can go to.
  Both are known by a number that is given out once, so two symbols of one name stay apart.
-/

namespace StructuredFlow

abbrev SymbolId := Nat

abbrev LabelId := Nat

/-- A typed variable; one without a name is out of reach of lookup by name. -/
structure Symbol where
  id : SymbolId
  name : Option String
  ty : Ty
deriving DecidableEq, Repr, Inhabited

namespace Symbol

def isNamed (s : Symbol) (name : String) : Bool :=
  s.name == some name

/-- The name, if there is one, and the number after a percent sign. -/
def render (s : Symbol) : String :=
  s.name.getD "" ++ "%" ++ Nat.repr s.id

/-- The written form in a list of declarations. -/
def renderTyped (s : Symbol) : String :=
  s.render ++ ": " ++ s.ty.render

theorem isNamed_iff {s : Symbol} {name : String} : s.isNamed name = true ↔ s.name = some name := by
  simp [isNamed]

end Symbol

/-- A jump target, with the type of the value that a jump to it carries. -/
structure Label where
  id : LabelId
  name : Option String
  ty : Ty
deriving DecidableEq, Repr, Inhabited

namespace Label

/-- A label that a construct makes for itself. -/
def internal (id : LabelId) : Label :=
  ⟨id, none, .void⟩

/-- A label that was named by whoever placed it. -/
def named (id : LabelId) (name : String) : Label :=
  ⟨id, some name, .void⟩

/-- A label that takes a value along. -/
def typed (id : LabelId) (ty : Ty) : Label :=
  ⟨id, none, ty⟩

/-- The written form of a label's number. -/
def renderId (id : LabelId) : String :=
  "L" ++ Nat.repr id

/-- The number, and the name behind a colon if there is one. -/
def render (l : Label) : String :=
  match l.name with
  | some name => renderId l.id ++ ":" ++ name
  | none => renderId l.id

end Label

end StructuredFlow
