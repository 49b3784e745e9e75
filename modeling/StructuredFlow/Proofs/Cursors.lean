import StructuredFlow.Proofs.Outcome
import StructuredFlow.Machine.Eval

/-
  Cursors. A cursor steps once through its items, whatever is done with it in between. The invariant
  is that after `k` steps the position is that of the `k`-th item, or the count of the items if there
  are fewer (`Cursor.after_place`); disposal has no part in it. So the `k`-th step succeeds just if
  there are `k` items, after which the cursor stands on the `k`-th, and an iterator of a program
  behaves accordingly (`Cursor.cursor_law`).
-/

namespace StructuredFlow

open Outcome

namespace Cursor

/-- What can be done with a cursor that changes it. -/
inductive Use where
  | moveNext
  | dispose
deriving DecidableEq

def Use.apply : Use → Cursor → Cursor
  | moveNext, c => c.moveNext.2
  | dispose, c => c.dispose

/-- The cursor after it has been used so, one after the other. -/
def after (c : Cursor) (uses : List Use) : Cursor :=
  uses.foldl (fun c use => use.apply c) c

/-- What the steps among the uses have told, in their order. -/
def answers (c : Cursor) : List Use → List Bool
  | [] => []
  | .moveNext :: rest => c.moveNext.1 :: c.moveNext.2.answers rest
  | .dispose :: rest => c.dispose.answers rest

theorem after_append (c : Cursor) (uses uses' : List Use) :
    c.after (uses ++ uses') = (c.after uses).after uses' :=
  List.foldl_append

/-! ## The invariant -/

/-- The item that a cursor stands on after so many steps, if it stands on one. -/
def itemAt? (items : List Value) : Nat → Option Value
  | 0 => none
  | k + 1 => items[k]?

/-- The position after so many steps: behind the last item it stays where it is. -/
def positionAt (items : List Value) : Nat → Option Nat
  | 0 => none
  | k + 1 => some (min k items.length)

/-- A cursor that has been moved so many times. -/
def place (items : List Value) (k : Nat) (disposable disposed : Bool) : Cursor :=
  ⟨items.toArray, positionAt items k, disposable, disposed⟩

variable {items : List Value} {k : Nat} {disposable disposed : Bool}

theorem ofItems_eq_place : ofItems items disposable = place items 0 disposable false := rfl

theorem current_place : (place items k disposable disposed).current = itemAt? items k := by
  cases k with
  | zero => rfl
  | succ k =>
    show items.toArray[min k items.length]? = items[k]?
    rw [List.getElem?_toArray]
    by_cases hk : k < items.length
    · rw [Nat.min_eq_left (Nat.le_of_lt hk)]
    · have hlength : items.length ≤ k := Nat.le_of_not_lt hk
      rw [Nat.min_eq_right hlength, List.getElem?_eq_none (Nat.le_refl _),
        List.getElem?_eq_none hlength]

/-- Up to the end of the items a step leads to the next of them, and then to the end again. -/
theorem next_place :
    min (place items k disposable disposed).next items.length = min k items.length := by
  cases k with
  | zero => rfl
  | succ k =>
    show min (min k items.length + 1) items.length = _
    omega

theorem moveNext_place :
    (place items k disposable disposed).moveNext =
      (decide (k < items.length), place items (k + 1) disposable disposed) := by
  have hnext : min (place items k disposable disposed).next items.length = min k items.length :=
    next_place
  have hmoved : (place items k disposable disposed).next < items.length ↔ k < items.length := by
    omega
  show (decide ((place items k disposable disposed).next < items.toArray.size),
    Cursor.mk items.toArray (some (min _ items.toArray.size)) disposable disposed) = _
  rw [List.size_toArray, hnext, decide_eq_decide.mpr hmoved]
  rfl

/-- Steps are counted and disposals are marked, in whatever order they come. -/
theorem after_place (uses : List Use) :
    (place items k disposable disposed).after uses =
      place items (k + uses.count .moveNext) disposable (disposed || uses.contains .dispose) := by
  induction uses generalizing k disposed with
  | nil => simp [after]
  | cons use uses ih =>
    cases use with
    | moveNext =>
      show ((place items k disposable disposed).moveNext.2).after uses = _
      rw [moveNext_place, ih, List.count_cons_self, List.contains_cons, Nat.add_right_comm,
        Nat.add_assoc]
      rfl
    | dispose =>
      show (place items k disposable true).after uses = _
      rw [ih, List.count_cons_of_ne (show Use.dispose ≠ .moveNext by decide), List.contains_cons]
      simp

theorem answers_place (uses : List Use) :
    (place items k disposable disposed).answers uses =
      (List.range (uses.count .moveNext)).map fun i => decide (k + i < items.length) := by
  induction uses generalizing k disposed with
  | nil => rfl
  | cons use uses ih =>
    cases use with
    | moveNext =>
      rw [answers, moveNext_place, ih, List.count_cons_self, List.range_succ_eq_map]
      simp [Function.comp_def, Nat.add_assoc, Nat.add_comm 1]
    | dispose =>
      rw [answers, List.count_cons_of_ne (show Use.dispose ≠ .moveNext by decide)]
      exact ih

/-! ## The law -/

variable (items) (disposable) in
/-- The law of a new cursor over the items, however it is used. -/
structure Lawful : Prop where
  /-- Each step among the uses gives an answer. -/
  answered : ∀ uses, ((ofItems items disposable).answers uses).length = uses.count .moveNext
  /-- The `k`-th step succeeds just if there are `k` items. -/
  succeeds : ∀ uses k, 1 ≤ k → k ≤ uses.count .moveNext →
    ((ofItems items disposable).answers uses)[k - 1]? = some (decide (k ≤ items.length))
  /-- After `k` steps the cursor stands on the `k`-th item, if there is one. -/
  current : ∀ uses k, uses.count .moveNext = k → ∀ hk : 1 ≤ k ∧ k ≤ items.length,
    ((ofItems items disposable).after uses).current = some items[k - 1]
  /-- Before the first step and behind the last item it stands on none. -/
  absent : ∀ uses k, uses.count .moveNext = k → k = 0 ∨ items.length < k →
    ((ofItems items disposable).after uses).current = none
  /-- After a step that has failed all steps fail. -/
  exhausted : ∀ uses later, false ∈ (ofItems items disposable).answers uses →
    ∀ moved ∈ ((ofItems items disposable).after uses).answers later, moved = false
  /-- Without the disposals the cursor would be the same, apart from their mark. -/
  disposed : ∀ uses,
    (ofItems items disposable).after uses =
        { (ofItems items disposable).after (uses.filter (· = .moveNext)) with
          disposed := uses.contains .dispose } ∧
      (ofItems items disposable).answers uses =
        (ofItems items disposable).answers (uses.filter (· = .moveNext))
  /-- The mark is there for good. -/
  marked : ∀ uses later, .dispose ∈ uses →
    ((ofItems items disposable).after (uses ++ later)).disposed = true

theorem lawful (items : List Value) (disposable : Bool) : Lawful items disposable where
  answered uses := by
    rw [ofItems_eq_place, answers_place, List.length_map, List.length_range]
  succeeds uses k hk hcount := by
    obtain ⟨i, rfl⟩ := Nat.exists_eq_add_of_le' hk
    rw [ofItems_eq_place, answers_place, List.getElem?_map, Nat.add_sub_cancel,
      List.getElem?_range hcount, Option.map_some, Nat.zero_add]
    rfl
  current uses k hcount hk := by
    rw [ofItems_eq_place, after_place, hcount, Nat.zero_add, current_place]
    obtain ⟨i, rfl⟩ := Nat.exists_eq_add_of_le' hk.1
    exact List.getElem?_eq_getElem hk.2
  absent uses k hcount hk := by
    rw [ofItems_eq_place, after_place, hcount, Nat.zero_add, current_place]
    cases k with
    | zero => rfl
    | succ k => exact List.getElem?_eq_none (by omega)
  exhausted uses later hfalse moved hmoved := by
    rw [ofItems_eq_place, answers_place, List.mem_map] at hfalse
    obtain ⟨i, hi, hfalse⟩ := hfalse
    rw [ofItems_eq_place, after_place, answers_place, List.mem_map] at hmoved
    obtain ⟨j, hj, rfl⟩ := hmoved
    have hi := List.mem_range.mp hi
    have hfalse := of_decide_eq_false hfalse
    exact decide_eq_false (by omega)
  disposed uses := by
    have hcount : (uses.filter (· = .moveNext)).count .moveNext = uses.count .moveNext :=
      List.count_filter rfl
    constructor
    · rw [ofItems_eq_place, after_place, after_place, hcount]
      rfl
    · rw [ofItems_eq_place, answers_place, answers_place, hcount]
  marked uses later h := by
    rw [ofItems_eq_place, after_place, place, List.contains_eq_mem]
    simp [h]

/-! ## Iterators of programs -/

/-- The iterator has a cursor over the items that has been used so since it was new. -/
structure Holds {ω : Type} (items : List Value) (disposable : Bool) (uses : List Use)
    (id : CursorId) (m : Machine ω) : Prop where
  known : id < m.heap.cursors.size
  cursor : m.heap.cursor id = (ofItems items disposable).after uses

/-- What the operations of a program on such an iterator do. -/
structure Walked {ω : Type} (items : List Value) (disposable : Bool) (uses : List Use)
    (id : CursorId) (m : Machine ω) : Prop where
  moveNext : ∃ m', Eval.intrinsic .moveNext [.iterator id] m =
      .ok (.bool (decide (uses.count .moveNext + 1 ≤ items.length))) m' ∧
    Holds items disposable (uses ++ [.moveNext]) id m'
  current : Eval.intrinsic .current [.iterator id] m =
    match itemAt? items (uses.count .moveNext) with
    | some v => .ok v m
    | none => .error (.typeError .noCurrent) m
  dispose : ∃ m', Eval.intrinsic .dispose [.iterator id] m = .ok .void m' ∧
    Holds items disposable (uses ++ [.dispose]) id m'

variable {ω : Type} {uses : List Use} {id : CursorId} {m : Machine ω}

/-- One more use of the cursor, as it is written back to the heap. -/
theorem Holds.setCursor (h : Holds items disposable uses id m) (use : Use) :
    Holds items disposable (uses ++ [use]) id (m.setCursor id (use.apply (m.heap.cursor id))) where
  known := by simpa [Machine.setCursor, Heap.setCursor] using h.known
  cursor := by
    rw [Machine.setCursor, Heap.cursor_setCursor h.known, h.cursor, after_append]
    rfl

theorem Holds.walked (h : Holds items disposable uses id m) :
    Walked items disposable uses id m := by
  have hplace := h.cursor
  rw [ofItems_eq_place, after_place, Nat.zero_add] at hplace
  constructor
  case moveNext =>
    have hmoved : (m.heap.cursor id).moveNext.1 =
        decide (uses.count .moveNext + 1 ≤ items.length) := by
      rw [hplace, moveNext_place]
      rfl
    rw [← hmoved]
    exact ⟨_, rfl, h.setCursor .moveNext⟩
  case current =>
    have hcurrent : (m.heap.cursor id).current = itemAt? items (uses.count .moveNext) := by
      rw [hplace, current_place]
    rw [← hcurrent]
    show Eval.current id m = _
    unfold Eval.current
    rw [get_andThen]
    cases (m.heap.cursor id).current <;> rfl
  case dispose =>
    have hused := h.setCursor .dispose
    exact ⟨_, rfl, hused.known, hused.cursor⟩

theorem holds_newIterator (items : List Value) (disposable : Bool) (m : Machine ω) :
    Holds items disposable [] m.heap.cursors.size
      { m with heap := (m.heap.newIterator (ofItems items disposable)).2 } where
  known := by simp [Heap.newIterator]
  cursor := Heap.cursor_newIterator _ _

/-- The law of cursors, for a new cursor and for the iterators of a program: a new iterator of a
list or a range has a new cursor over the items, and goes by the law whatever it is used for. -/
theorem cursor_law (items : List Value) (disposable : Bool) :
    Lawful items disposable ∧
      ∀ {ω : Type} (m : Machine ω),
        (∃ m', Eval.intrinsic .getIterator [.list items] m = .ok (.iterator m.heap.cursors.size) m' ∧
          Holds items true [] m.heap.cursors.size m') ∧
        (∀ start stop, ∃ m', Eval.intrinsic .getIterator [.range start stop] m =
            .ok (.iterator m.heap.cursors.size) m' ∧
          Holds (Value.rangeItems start stop) false [] m.heap.cursors.size m') ∧
        ∀ uses id, Holds items disposable uses id m → Walked items disposable uses id m :=
  ⟨lawful items disposable, fun m =>
    ⟨⟨_, rfl, holds_newIterator items true m⟩,
      fun _ _ => ⟨_, rfl, holds_newIterator _ false m⟩,
      fun _ _ => Holds.walked⟩⟩

/-- Of the items `1` and `2` the second is current after two steps, whatever was disposed of
before; there is no third step. -/
theorem cursor_law_of_two_items :
    ((ofItems [.int 1, .int 2] true).after [.moveNext, .dispose, .moveNext]).current =
        some (.int 2) ∧
      ((ofItems [.int 1, .int 2] true).answers [.moveNext, .dispose, .moveNext, .moveNext])[2]? =
        some false := by
  have law := (cursor_law [.int 1, .int 2] true).1
  exact ⟨law.current _ 2 rfl (by decide), law.succeeds _ 3 (by decide) (by decide)⟩

end Cursor

end StructuredFlow
