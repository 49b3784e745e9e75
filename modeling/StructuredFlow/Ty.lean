/-
  Types of values, as far as a builder needs them: to match a fragment with the place it is put in,
  to choose how a collection is walked, and to see whether a value can be null.
-/

namespace StructuredFlow

/-- A type. Objects are named classes held by reference, records are named kinds of plain values.
-/
inductive Ty where
  | void
  | bool
  | int
  | long
  | str
  | any
  | object (name : String)
  | record (name : String)
  | list (elem : Ty)
  | range
  | iterator (elem : Ty) (disposable : Bool)
deriving DecidableEq, Repr, Inhabited

namespace Ty

/-- Values of the type are held by reference, so that null is one of them. -/
def isReference : Ty → Bool
  | str | any | object _ | list _ | iterator _ _ => true
  | _ => false

def isVoid : Ty → Bool
  | void => true
  | _ => false

/-- The type of the iterator that walks a collection: over a list it has to be disposed of. -/
def iteratorType? : Ty → Option Ty
  | list elem => some (iterator elem true)
  | range => some (iterator int false)
  | _ => none

/-- The type of what an iterator yields. -/
def elementType? : Ty → Option Ty
  | iterator elem _ => some elem
  | _ => none

def isDisposable : Ty → Bool
  | iterator _ disposable => disposable
  | _ => false

/-- A place of the first type takes values of the second: the same type, or any reference for
`any`. -/
def accepts (place found : Ty) : Bool :=
  place == found || (place == any && found.isReference)

/-- Values of the first type can be converted to the second: where it takes them as they are,
between the two widths of integers, and from `any` down to a class. -/
def convertsTo (found place : Ty) : Bool :=
  place.accepts found ||
    match found, place with
    | int, long | long, int | any, object _ => true
    | _, _ => false

/-- The written form of a type. -/
def render : Ty → String
  | void => "void"
  | bool => "bool"
  | int => "int"
  | long => "long"
  | str => "str"
  | any => "any"
  | object name => name
  | record name => name
  | list elem => "list<" ++ elem.render ++ ">"
  | range => "range"
  | iterator elem true => "iter<" ++ elem.render ++ ">+dispose"
  | iterator elem false => "iter<" ++ elem.render ++ ">"

@[simp] theorem accepts_self (t : Ty) : t.accepts t = true := by simp [accepts]

theorem accepts_iff {place found : Ty} :
    place.accepts found = true ↔ place = found ∨ place = any ∧ found.isReference = true := by
  simp [accepts]

theorem convertsTo_of_accepts {found place : Ty} (h : place.accepts found = true) :
    found.convertsTo place = true := by
  simp [convertsTo, h]

end Ty

end StructuredFlow
