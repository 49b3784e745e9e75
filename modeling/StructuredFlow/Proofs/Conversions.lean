import StructuredFlow.Proofs.Conformance
import StructuredFlow.Proofs.Outcome

/-
  Conversions of values against conversions of types. Between two different types, a conversion that
  is allowed succeeds, except that the cast from `any` to a class is checked; the value stays as it
  is, but for the width of an integer (`Heap.Conforms.converts`). A conversion that is not allowed
  fails on what is not of the type already (`Heap.Conforms.convert_refused`). The table of types has
  more identities than that of values: nothing but null is converted to a list, a record, a range,
  an iterator or `void`, not even what is of that type. And the table of values lets ranges and
  `void` pass for `any`, which that of types does not. All of this is `Heap.Conforms.conversion_law`.
-/

namespace StructuredFlow

open Outcome

/-- What a conversion makes of a value: an integer of the other width is as large, or keeps its low
bits, and any other value stays as it is. -/
inductive Value.Converted : Value → Value → Prop
  | kept (v : Value) : Converted v v
  | widened (i : Int32) {l : Int64} (value : l.toInt = i.toInt) : Converted (.int i) (.long l)
  | narrowed (l : Int64) {i : Int32}
      (bits : ∀ k < 32, i.toBitVec.getLsbD k = l.toBitVec.getLsbD k) : Converted (.long l) (.int i)

namespace Ty

/-- A type to which nothing but null is converted. -/
def isClosed : Ty → Bool
  | void | record _ | list _ | range | iterator _ _ => true
  | _ => false

variable {found place : Ty}

/-- An allowed conversion is one of a type to itself or to `any`, one of the width of an integer, or
a cast. -/
theorem convertsTo_iff :
    found.convertsTo place = true ↔
      found = place ∨ place = any ∧ found.isReference = true ∨ found = int ∧ place = long ∨
        found = long ∧ place = int ∨ found = any ∧ ∃ name, place = object name := by
  unfold convertsTo
  rw [Bool.or_eq_true, accepts_iff]
  constructor
  · rintro ((rfl | h) | h)
    · exact .inl rfl
    · exact .inr (.inl h)
    · split at h <;> simp_all
  · rintro (rfl | h | ⟨rfl, rfl⟩ | ⟨rfl, rfl⟩ | ⟨rfl, name, rfl⟩)
    · exact .inl (.inl rfl)
    · exact .inl (.inr h)
    all_goals exact .inr rfl

/-- Only the identities lead to a type to which nothing is converted. -/
theorem eq_of_isClosed (h : found.convertsTo place = true) (hclosed : place.isClosed = true) :
    found = place := by
  rcases convertsTo_iff.mp h with rfl | ⟨rfl, -⟩ | ⟨-, rfl⟩ | ⟨-, rfl⟩ | ⟨-, name, rfl⟩
  · rfl
  all_goals cases hclosed

end Ty

namespace Value

variable {v w : Value} {place : Ty}

theorem Converted.widen (i : Int32) : Converted (.int i) (.long i.toInt64) :=
  .widened i i.toInt_toInt64

theorem Converted.narrow (l : Int64) : Converted (.long l) (.int l.toInt32) := by
  refine .narrowed l fun k hk => ?_
  rw [Int64.toBitVec_toInt32, BitVec.getLsbD_signExtend]
  simp [hk, Nat.lt_trans hk (by decide : 32 < 64)]

/-- Nothing but null is converted to a closed type. -/
theorem convert?_isClosed (hclosed : place.isClosed = true) (hv : v ≠ .null) :
    v.convert? place = none := by
  cases place with
  | void | record | list | range | iterator =>
    cases v with
    | null => exact absurd rfl hv
    | _ => rfl
  | _ => cases hclosed

/-- The number that is widened comes back. -/
theorem convert?_roundTrip (i : Int32) :
    ((Value.int i).convert? .long).bind (·.convert? .int) = some (.int i) := by
  show some (Value.int i.toInt64.toInt32) = _
  rw [Int32.toInt32_toInt64]

end Value

namespace Heap.Conforms

variable {h : Heap} {found place : Ty} {v : Value}

/-- Whatever is of a type that conversions lead to stays as it is. -/
theorem convert?_kept (hv : h.Conforms place v) (hopen : place.isClosed = false) :
    v.convert? place = some v := by
  cases place with
  | bool | int | long =>
    obtain ⟨_, rfl⟩ := hv
    rfl
  | str => rcases hv with rfl | ⟨s, rfl⟩ <;> rfl
  | any =>
    rcases hv with rfl | hv
    · rfl
    · cases v with
      | object | str | list | iterator => rfl
      | _ => cases hv
  | object name =>
    rcases hv with rfl | ⟨id, fields, rfl⟩
    · rfl
    · exact if_pos rfl
  | _ => cases hopen

/-- An allowed conversion succeeds, unless it is one to a closed type or a cast that does not fit. -/
theorem converts (hv : h.Conforms found v) (hconverts : found.convertsTo place = true)
    (hopen : place.isClosed = false) (hcast : found = .any → h.Conforms place v) :
    ∃ w, v.convert? place = some w ∧ h.Conforms place w ∧ v.Converted w := by
  rcases Ty.convertsTo_iff.mp hconverts with rfl | ⟨rfl, hreference⟩ | ⟨rfl, rfl⟩ | ⟨rfl, rfl⟩ |
    ⟨rfl, -⟩
  · exact ⟨v, hv.convert?_kept hopen, hv, .kept v⟩
  · exact ⟨v, (hv.any hreference).convert?_kept hopen, hv.any hreference, .kept v⟩
  · obtain ⟨i, rfl⟩ := hv
    exact ⟨_, rfl, ⟨_, rfl⟩, .widen i⟩
  · obtain ⟨l, rfl⟩ := hv
    exact ⟨_, rfl, ⟨_, rfl⟩, .narrow l⟩
  · exact ⟨v, (hcast rfl).convert?_kept hopen, hcast rfl, .kept v⟩

/-- A cast from `any` that does not fit fails. -/
theorem convert?_cast (hconverts : Ty.any.convertsTo place = true) (hv : h.Conforms .any v)
    (hmisfit : ¬h.Conforms place v) : v.convert? place = none := by
  rcases Ty.convertsTo_iff.mp hconverts with rfl | ⟨rfl, -⟩ | ⟨⟨⟩, -⟩ | ⟨⟨⟩, -⟩ | ⟨-, name, rfl⟩
  · exact absurd hv hmisfit
  · exact absurd hv hmisfit
  · cases v with
    | null => exact absurd (.inl rfl) hmisfit
    | object id className fields =>
      refine if_neg fun heq => hmisfit (.inr ⟨id, fields, ?_⟩)
      rw [heq]
    | _ => rfl

/-- What is converted, and not null, is of the type already, or an integer of the other width, or
passes for `any`. -/
theorem of_convert? {w : Value} (hw : v.convert? place = some w) (hnull : v ≠ .null) :
    h.Conforms place v ∨ (∃ i, v = .int i) ∧ place = .long ∨ (∃ l, v = .long l) ∧ place = .int ∨
      place = .any ∧ (v = .void ∨ ∃ start stop, v = .range start stop) := by
  cases hclosed : place.isClosed with
  | true =>
    rw [Value.convert?_isClosed hclosed hnull] at hw
    cases hw
  | false =>
    cases place with
    | bool =>
      cases v with
      | bool b => exact .inl ⟨b, rfl⟩
      | null => exact absurd rfl hnull
      | _ => cases hw
    | int =>
      cases v with
      | int i => exact .inl ⟨i, rfl⟩
      | long l => exact .inr (.inr (.inl ⟨⟨l, rfl⟩, rfl⟩))
      | null => exact absurd rfl hnull
      | _ => cases hw
    | long =>
      cases v with
      | int i => exact .inr (.inl ⟨⟨i, rfl⟩, rfl⟩)
      | long l => exact .inl ⟨l, rfl⟩
      | null => exact absurd rfl hnull
      | _ => cases hw
    | str =>
      cases v with
      | str s => exact .inl (.inr ⟨s, rfl⟩)
      | null => exact absurd rfl hnull
      | _ => cases hw
    | any =>
      cases v with
      | object | str | list | iterator => exact .inl (.inr rfl)
      | void => exact .inr (.inr (.inr ⟨rfl, .inl rfl⟩))
      | range start stop => exact .inr (.inr (.inr ⟨rfl, .inr ⟨start, stop, rfl⟩⟩))
      | null => exact absurd rfl hnull
      | _ => cases hw
    | object name =>
      cases v with
      | object id className fields =>
        rw [Value.convert?] at hw
        split at hw
        next heq => exact .inl (.inr ⟨id, fields, by rw [heq]⟩)
        next => cases hw
      | null => exact absurd rfl hnull
      | _ => cases hw
    | _ => cases hclosed

theorem type_of_int {i : Int32} (hv : h.Conforms found (.int i)) : found = .int := by
  cases found <;> simp [Conforms, Value.isInstanceOf] at hv ⊢

theorem type_of_long {l : Int64} (hv : h.Conforms found (.long l)) : found = .long := by
  cases found <;> simp [Conforms, Value.isInstanceOf] at hv ⊢

theorem type_of_void (hv : h.Conforms found .void) : found = .void := by
  cases found <;> simp [Conforms, Value.isInstanceOf] at hv ⊢

theorem type_of_range {start stop : Int32} (hv : h.Conforms found (.range start stop)) :
    found = .range := by
  cases found <;> simp [Conforms, Value.isInstanceOf] at hv ⊢

/-- A conversion that is not allowed fails on a value that is not of the type already, unless that
is `void` or a range, which pass for `any`. -/
theorem convert_refused (hv : h.Conforms found v) (hforbidden : found.convertsTo place = false)
    (hnull : v ≠ .null) (hmisfit : ¬h.Conforms place v)
    (hpass : place = .any → found ≠ .void ∧ found ≠ .range) : v.convert? place = none := by
  cases hw : v.convert? place with
  | none => rfl
  | some w =>
    exfalso
    rcases of_convert? hw hnull with hkept | ⟨⟨i, rfl⟩, rfl⟩ | ⟨⟨l, rfl⟩, rfl⟩ |
      ⟨rfl, rfl | ⟨start, stop, rfl⟩⟩
    · exact hmisfit hkept
    · obtain rfl := hv.type_of_int
      cases hforbidden
    · obtain rfl := hv.type_of_long
      cases hforbidden
    · exact (hpass rfl).1 hv.type_of_void
    · exact (hpass rfl).2 hv.type_of_range

/-! ## The law -/

variable {ω : Type} {m : Machine ω}

/-- The law of conversions, for a value of the first type and a place of the second. One that is
allowed succeeds, leaves the machine as it is and gives a value of the place's type, unless it is
the identity of a closed type or a checked cast of what is not of the class; these two fail. One
that is not allowed fails on what is neither null nor of the place's type already, unless `void` or
a range passes for `any`. An integer comes back from a longer width as it was. -/
theorem conversion_law (hv : m.heap.Conforms found v) :
    (found.convertsTo place = true → (found = place → place.isClosed = true → v = .null) →
        (found = .any → m.heap.Conforms place v) →
          ∃ w, Eval.convert v place m = .ok w m ∧ m.heap.Conforms place w ∧ v.Converted w) ∧
      (found.convertsTo place = true →
        (found = place ∧ place.isClosed = true ∧ v ≠ .null ∨
          found = .any ∧ ¬m.heap.Conforms place v) →
            Eval.convert v place m = .error (.typeError (.conversion v place)) m) ∧
        (found.convertsTo place = false → v ≠ .null → ¬m.heap.Conforms place v →
          (place = .any → found ≠ .void ∧ found ≠ .range) →
            Eval.convert v place m = .error (.typeError (.conversion v place)) m) ∧
          ∀ i, (Eval.convert (.int i) .long >>= (Eval.convert · .int)) m = .ok (.int i) m := by
  have succeeds : ∀ {v w : Value} {place : Ty}, v.convert? place = some w →
      Eval.convert v place m = .ok w m := fun hw => by
    rw [Eval.convert, hw]
    rfl
  have fails : v.convert? place = none →
      Eval.convert v place m = .error (.typeError (.conversion v place)) m := fun hw => by
    rw [Eval.convert, hw]
    rfl
  refine ⟨fun hconverts hclosed hcast => ?_, fun hconverts hexception => fails ?_,
    fun hforbidden hnull hmisfit hpass => fails ?_, fun i => ?_⟩
  · cases hplace : place.isClosed with
    | true =>
      obtain rfl := Ty.eq_of_isClosed hconverts hplace
      obtain rfl := hclosed rfl hplace
      exact ⟨.null, succeeds rfl, hv, .kept _⟩
    | false =>
      obtain ⟨w, hw, hconforms, hconverted⟩ := hv.converts hconverts hplace hcast
      exact ⟨w, succeeds hw, hconforms, hconverted⟩
  · rcases hexception with ⟨-, hclosed, hnull⟩ | ⟨rfl, hmisfit⟩
    · exact Value.convert?_isClosed hclosed hnull
    · exact convert?_cast hconverts hv hmisfit
  · exact hv.convert_refused hforbidden hnull hmisfit hpass
  · refine andThen_ok.mpr ⟨.long i.toInt64, m, succeeds rfl, succeeds ?_⟩
    exact Value.convert?_roundTrip i

/-- A text is converted to `any`, from there to no class, and not to a number. -/
theorem conversion_of_text :
    ∃ (m : Machine Unit) (v : Value), v = .str "a" ∧ m.heap.Conforms .str v ∧
      (∃ w, Eval.convert v .any m = .ok w m ∧ m.heap.Conforms .any w ∧ v.Converted w) ∧
        Eval.convert v (.object "A") m = .error (.typeError (.conversion v (.object "A"))) m ∧
          Eval.convert v .int m = .error (.typeError (.conversion v .int)) m := by
  let m : Machine Unit := .new .empty () 9
  have hstr : m.heap.Conforms .str (.str "a") := .inr ⟨"a", rfl⟩
  have hany : m.heap.Conforms .any (.str "a") := .inr rfl
  refine ⟨m, .str "a", rfl, hstr, ?_, ?_, ?_⟩
  · exact (@conversion_law .str .any (.str "a") _ m hstr).1 rfl nofun nofun
  · have hmisfit : ¬m.heap.Conforms (.object "A") (.str "a") := by simp [Heap.Conforms]
    exact (@conversion_law .any (.object "A") (.str "a") _ m hany).2.1 rfl (.inr ⟨rfl, hmisfit⟩)
  · have hmisfit : ¬m.heap.Conforms .int (.str "a") := by simp [Heap.Conforms]
    exact (@conversion_law .str .int (.str "a") _ m hstr).2.2.1 rfl nofun hmisfit nofun

/-- A list is not converted to its own type, though that is allowed, and a range is converted to
`any`, though that is not. -/
theorem conversion_tables_differ :
    ∃ m : Machine Unit,
      (m.heap.Conforms (.list .int) (.list [.int 1]) ∧
        (Ty.list .int).convertsTo (.list .int) = true ∧
          Eval.convert (.list [.int 1]) (.list .int) m =
            .error (.typeError (.conversion (.list [.int 1]) (.list .int))) m) ∧
        m.heap.Conforms .range (.range 0 2) ∧ Ty.range.convertsTo .any = false ∧
          ¬m.heap.Conforms .any (.range 0 2) ∧
            Eval.convert (.range 0 2) .any m = .ok (.range 0 2) m := by
  have hlist : (Machine.new Host.empty () 9 : Machine Unit).heap.Conforms (.list .int)
      (.list [.int 1]) := .inr ⟨_, rfl, List.forall_mem_singleton.mpr ⟨1, rfl⟩⟩
  exact ⟨_, ⟨hlist, rfl, rfl⟩, .inr ⟨0, 2, rfl⟩, rfl, by simp [Heap.Conforms, Value.isInstanceOf],
    rfl⟩

end Heap.Conforms

end StructuredFlow
