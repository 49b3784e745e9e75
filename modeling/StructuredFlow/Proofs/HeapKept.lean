import StructuredFlow.Value.Heap

/-
  How the heap changes. Cursors are only ever added, and what a cursor has still to show it had to
  show before (`Heap.Evolves`): a step drops items, and disposal leaves them.
-/

namespace StructuredFlow

namespace Cursor

/-- The items that the cursor stands on or before. -/
def items (c : Cursor) : List Value :=
  c.current.toList ++ c.pending

theorem items_moveNext (c : Cursor) : c.moveNext.2.items ⊆ c.items := by
  cases hp : c.pending with
  | nil =>
    obtain ⟨-, hcurrent, hpending⟩ := moveNext_nil hp
    rw [items, hcurrent, hpending]
    exact List.nil_subset _
  | cons v rest =>
    obtain ⟨-, hcurrent, hpending⟩ := moveNext_cons hp
    rw [items, items, hcurrent, hpending, hp]
    exact List.subset_append_right _ _

end Cursor

namespace Heap

/-- The heap later on: its cursors are there, with nothing new to show. -/
structure Evolves (h h' : Heap) : Prop where
  size : h.cursors.size ≤ h'.cursors.size
  items : ∀ id < h.cursors.size, (h'.cursor id).items ⊆ (h.cursor id).items

namespace Evolves

variable {h h' h'' : Heap}

theorem refl (h : Heap) : h.Evolves h :=
  ⟨Nat.le_refl _, fun _ _ _ hv => hv⟩

theorem trans (hh : h.Evolves h') (hh' : h'.Evolves h'') : h.Evolves h'' where
  size := Nat.le_trans hh.size hh'.size
  items id hid _ hv := hh.items id hid (hh'.items id (Nat.lt_of_lt_of_le hid hh.size) hv)

theorem newObject (h : Heap) (className : String) (fields : List Value) :
    h.Evolves (h.newObject className fields).2 :=
  ⟨Nat.le_refl _, fun _ _ _ hv => hv⟩

theorem newIterator (h : Heap) (c : Cursor) : h.Evolves (h.newIterator c).2 where
  size := by simp [Heap.newIterator]
  items id hid v hv := by rwa [cursor_newIterator_of_lt hid] at hv

/-- A cursor that has nothing new to show takes the place of the old one. -/
theorem setCursor {id : CursorId} {c : Cursor} (hc : c.items ⊆ (h.cursor id).items) :
    h.Evolves (h.setCursor id c) where
  size := by simp [Heap.setCursor]
  items id' hid' v hv := by
    by_cases heq : id = id'
    · subst heq
      rw [cursor_setCursor hid'] at hv
      exact hc hv
    · rwa [cursor_setCursor_of_ne heq] at hv

end Evolves

end Heap

end StructuredFlow
