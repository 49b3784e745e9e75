import StructuredFlow.Machine.Eval
import StructuredFlow.Proofs.HeapKept

/-
  Which values are of which type (`Heap.Conforms`). Null, which is the zero of most types, is of all
  types but `void`, `bool`, `int` and `long`. A list is of its type by its items, and an iterator by
  what its cursor has to show, so the heap has a part in it; as that can only become less, a value
  keeps its type while the heap goes on (`Heap.Evolves.conforms`).
-/

namespace StructuredFlow

namespace Heap

/-- The value is one of the type. -/
def Conforms (h : Heap) : Ty → Value → Prop
  | .void, v => v = .void
  | .bool, v => ∃ b, v = .bool b
  | .int, v => ∃ i, v = .int i
  | .long, v => ∃ i, v = .long i
  | .str, v => v = .null ∨ ∃ s, v = .str s
  | .any, v => v = .null ∨ v.isInstanceOf .any = true
  | .object name, v | .record name, v => v = .null ∨ ∃ id fields, v = .object id name fields
  | .list elem, v => v = .null ∨ ∃ items, v = .list items ∧ ∀ x ∈ items, h.Conforms elem x
  | .range, v => v = .null ∨ ∃ start stop, v = .range start stop
  | .iterator elem _, v =>
    v = .null ∨ ∃ id, v = .iterator id ∧ id < h.cursors.size ∧
      ∀ x ∈ (h.cursor id).items, h.Conforms elem x

variable {h h' : Heap} {ty found place : Ty} {v w : Value}

theorem conforms_null (hty : ty.isReference = true) : h.Conforms ty .null := by
  cases ty with
  | str | any | object | list | iterator => exact .inl rfl
  | _ => cases hty

/-- A variable that has not been assigned holds a value of its type. -/
theorem conforms_zero (h : Heap) (ty : Ty) : h.Conforms ty (Value.zero ty) := by
  cases ty with
  | void => rfl
  | bool | int | long => exact ⟨_, rfl⟩
  | _ => exact .inl rfl

theorem conforms_ofConstant {c : Constant} (hc : ∀ ty, c = .null ty → ty.isReference = true) :
    h.Conforms c.type (Value.ofConstant c) := by
  cases c with
  | bool | int | long => exact ⟨_, rfl⟩
  | str s => exact .inr ⟨s, rfl⟩
  | null ty => exact conforms_null (hc ty rfl)

/-- What is held by reference is of any type that takes all of that. -/
theorem Conforms.any (hv : h.Conforms ty v) (hty : ty.isReference = true) : h.Conforms .any v := by
  cases ty with
  | any => exact hv
  | str =>
    rcases hv with rfl | ⟨s, rfl⟩
    · exact .inl rfl
    · exact .inr rfl
  | object name =>
    rcases hv with rfl | ⟨id, fields, rfl⟩
    · exact .inl rfl
    · exact .inr rfl
  | list elem =>
    rcases hv with rfl | ⟨items, rfl, -⟩
    · exact .inl rfl
    · exact .inr rfl
  | iterator elem disposable =>
    rcases hv with rfl | ⟨id, rfl, -⟩
    · exact .inl rfl
    · exact .inr rfl
  | _ => cases hty

theorem Conforms.accepted (hv : h.Conforms found v) (haccepts : place.accepts found = true) :
    h.Conforms place v := by
  rcases Ty.accepts_iff.mp haccepts with rfl | ⟨rfl, hreference⟩
  · exact hv
  · exact hv.any hreference

/-- A handler is entered with values of its kind. -/
theorem conforms_of_isInstanceOf (hv : v.isInstanceOf ty = true) : h.Conforms ty v := by
  unfold Value.isInstanceOf at hv
  split at hv
  · exact .inr rfl
  · exact .inr rfl
  · exact .inr rfl
  · exact .inr rfl
  next id name fields kind => exact .inr ⟨id, fields, by rw [beq_iff_eq.mp hv]⟩
  next s => exact .inr ⟨s, rfl⟩
  · cases hv

/-- Conversion to the type that a value is of leaves it as it is, if it gives a value at all. -/
theorem Conforms.convert_eq (hv : h.Conforms ty v) (hw : v.convert? ty = some w) : w = v := by
  cases ty with
  | void =>
    obtain rfl := hv
    cases hw
  | bool | int | long =>
    obtain ⟨_, rfl⟩ := hv
    exact (Option.some.inj hw).symm
  | any =>
    rcases hv with rfl | hv
    · exact (Option.some.inj hw).symm
    · cases v with
      | object | str | list | iterator => exact (Option.some.inj hw).symm
      | _ => cases hv
  | object name =>
    rcases hv with rfl | ⟨id, fields, rfl⟩
    · exact (Option.some.inj hw).symm
    · rw [Value.convert?, if_pos rfl] at hw
      exact (Option.some.inj hw).symm
  | str =>
    rcases hv with rfl | ⟨s, rfl⟩ <;> exact (Option.some.inj hw).symm
  | record name =>
    rcases hv with rfl | ⟨id, fields, rfl⟩
    · exact (Option.some.inj hw).symm
    · cases hw
  | list elem =>
    rcases hv with rfl | ⟨items, rfl, -⟩
    · exact (Option.some.inj hw).symm
    · cases hw
  | range =>
    rcases hv with rfl | ⟨start, stop, rfl⟩
    · exact (Option.some.inj hw).symm
    · cases hw
  | iterator elem disposable =>
    rcases hv with rfl | ⟨id, rfl, -⟩
    · exact (Option.some.inj hw).symm
    · cases hw

/-- A conversion that is allowed gives, if anything, a value of the type that it leads to. -/
theorem Conforms.converted (hv : h.Conforms found v) (hconverts : found.convertsTo place = true)
    (hw : v.convert? place = some w) : h.Conforms place w := by
  unfold Ty.convertsTo at hconverts
  rw [Bool.or_eq_true] at hconverts
  rcases hconverts with haccepts | hconverts
  · have hv := hv.accepted haccepts
    exact hv.convert_eq hw ▸ hv
  · split at hconverts
    · obtain ⟨i, rfl⟩ := hv
      exact ⟨_, (Option.some.inj hw).symm⟩
    · obtain ⟨i, rfl⟩ := hv
      exact ⟨_, (Option.some.inj hw).symm⟩
    next name =>
      cases v with
      | null => exact .inl (Option.some.inj hw).symm
      | object id className fields =>
        rw [Value.convert?] at hw
        split at hw
        next heq =>
          subst heq
          exact .inr ⟨id, fields, (Option.some.inj hw).symm⟩
        next => cases hw
      | _ => cases hw
    · cases hconverts

/-- A value stays one of its type while the heap goes on. -/
theorem Evolves.conforms (hh : h.Evolves h') (hv : h.Conforms ty v) : h'.Conforms ty v := by
  induction ty generalizing v with
  | list elem ih =>
    refine hv.imp_right fun ⟨items, hitems, hall⟩ => ⟨items, hitems, fun x hx => ih (hall x hx)⟩
  | iterator elem disposable ih =>
    refine hv.imp_right fun ⟨id, hid, hlt, hall⟩ => ?_
    exact ⟨id, hid, Nat.lt_of_lt_of_le hlt hh.size, fun x hx => ih (hall x (hh.items id hlt hx))⟩
  | _ => exact hv

end Heap

end StructuredFlow
