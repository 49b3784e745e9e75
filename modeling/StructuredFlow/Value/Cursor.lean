import StructuredFlow.Value

/-
  A cursor walks once over a list of items: it stands before the first item at the start, on an
  item after each step, and behind the last one for good. Where it stands is the number of an item,
  at most the count of them. What a step does is told by the items that are still to come
  (`Cursor.pending`). Disposal only leaves a mark on the cursor.
-/

namespace StructuredFlow

structure Cursor where
  elements : Array Value
  /-- The number of the current element; none before the first step. -/
  position : Option Nat
  disposable : Bool
  disposed : Bool
deriving Repr, Inhabited

namespace Cursor

/-- A cursor before the first of the items. -/
def ofItems (items : List Value) (disposable : Bool) : Cursor :=
  ⟨items.toArray, none, disposable, false⟩

/-- The number of the element that a step leads to, if there are so many. -/
def next (c : Cursor) : Nat :=
  match c.position with
  | none => 0
  | some p => p + 1

/-- Steps to the next item, and tells whether there is one. -/
def moveNext (c : Cursor) : Bool × Cursor :=
  (decide (c.next < c.elements.size), { c with position := some (min c.next c.elements.size) })

/-- The item that the cursor stands on. -/
def current (c : Cursor) : Option Value :=
  c.position.bind fun p => c.elements[p]?

def dispose (c : Cursor) : Cursor :=
  { c with disposed := true }

/-- The items that are still to come. -/
def pending (c : Cursor) : List Value :=
  c.elements.toList.drop c.next

theorem pending_eq_nil_iff {c : Cursor} : c.pending = [] ↔ c.elements.size ≤ c.next := by
  rw [pending, List.drop_eq_nil_iff, Array.length_toList]

theorem moveNext_nil {c : Cursor} (h : c.pending = []) :
    c.moveNext.1 = false ∧ c.moveNext.2.current = none ∧ c.moveNext.2.pending = [] := by
  have hsize := pending_eq_nil_iff.mp h
  have hposition : c.moveNext.2.position = some c.elements.size := by
    rw [moveNext, Nat.min_eq_right hsize]
  refine ⟨decide_eq_false (Nat.not_lt.mpr hsize), ?_, ?_⟩
  · rw [current, hposition, Option.bind_some]
    exact Array.getElem?_eq_none (Nat.le_refl _)
  · rw [pending_eq_nil_iff, next, hposition]
    exact Nat.le_succ _

theorem moveNext_cons {c : Cursor} {v : Value} {rest : List Value} (h : c.pending = v :: rest) :
    c.moveNext.1 = true ∧ c.moveNext.2.current = some v ∧ c.moveNext.2.pending = rest := by
  have hsize : c.next < c.elements.size := Nat.lt_of_not_le fun hsize =>
    List.cons_ne_nil v rest (h.symm.trans (pending_eq_nil_iff.mpr hsize))
  have hposition : c.moveNext.2.position = some c.next := by
    rw [moveNext, Nat.min_eq_left (Nat.le_of_lt hsize)]
  obtain ⟨hv, hrest⟩ := List.cons.inj
    ((List.drop_eq_getElem_cons (by rwa [Array.length_toList])).symm.trans h)
  refine ⟨decide_eq_true hsize, ?_, ?_⟩
  · rw [current, hposition, Option.bind_some, ← hv]
    exact Array.getElem?_eq_getElem hsize
  · rw [pending, next, hposition]
    exact hrest

end Cursor

end StructuredFlow
