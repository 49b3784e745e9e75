import StructuredFlow.Value.Cursor

/-
  What is shared by reference: the cursors behind iterator values, and the count of the objects
  made so far, which gives the next object its number.
-/

namespace StructuredFlow

structure Heap where
  cursors : Array Cursor
  objectCount : Nat
deriving Inhabited

namespace Heap

def empty : Heap :=
  ⟨#[], 0⟩

/-- A new object, equal to no other. -/
def newObject (h : Heap) (className : String) (fields : List Value) : Value × Heap :=
  (.object h.objectCount className fields, { h with objectCount := h.objectCount + 1 })

/-- A new iterator, with a cursor of its own. -/
def newIterator (h : Heap) (c : Cursor) : Value × Heap :=
  (.iterator h.cursors.size, { h with cursors := h.cursors.push c })

/-- The cursor behind an iterator; a number that no iterator has stands for an empty one. -/
def cursor (h : Heap) (id : CursorId) : Cursor :=
  h.cursors[id]?.getD (Cursor.ofItems [] false)

def setCursor (h : Heap) (id : CursorId) (c : Cursor) : Heap :=
  { h with cursors := h.cursors.setIfInBounds id c }

theorem cursor_newIterator (h : Heap) (c : Cursor) :
    (h.newIterator c).2.cursor h.cursors.size = c := by
  simp [newIterator, cursor]

theorem cursor_newIterator_of_lt {h : Heap} {id : CursorId} (hid : id < h.cursors.size)
    (c : Cursor) : (h.newIterator c).2.cursor id = h.cursor id := by
  simp [newIterator, cursor, Array.getElem?_push, Nat.ne_of_lt hid]

theorem cursor_setCursor {h : Heap} {id : CursorId} (hid : id < h.cursors.size) (c : Cursor) :
    (h.setCursor id c).cursor id = c := by
  simp [setCursor, cursor, hid]

theorem cursor_setCursor_of_ne {h : Heap} {id id' : CursorId} (hne : id ≠ id') (c : Cursor) :
    (h.setCursor id c).cursor id' = h.cursor id' := by
  simp [setCursor, cursor, hne]

end Heap

end StructuredFlow
