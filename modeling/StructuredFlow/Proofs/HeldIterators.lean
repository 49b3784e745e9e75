import StructuredFlow.Host.Standard
import StructuredFlow.Proofs.CleanupRegions
import StructuredFlow.Proofs.StaticScoping

/-
  Who holds an iterator. An iterator is stepped by what holds its value: a variable, another value,
  a cursor that has the value to show, or the host, which hands on only what it was handed
  (`Host.Honest`). If nothing but one variable holds an iterator (`Machine.Hides`), this remains so
  while an expression is evaluated that does not mention the variable, and the cursor behind the
  iterator is left where it stands (`Expr.eval_hides`).
-/

namespace StructuredFlow

variable {ω : Type}

open Outcome

/-! ## Iterators in values -/

namespace Value

mutual

/-- The iterators that a value holds. -/
def iterators : Value → List CursorId
  | iterator id => [id]
  | object _ _ fields => iteratorsAll fields
  | list items => iteratorsAll items
  | _ => []

def iteratorsAll : List Value → List CursorId
  | [] => []
  | v :: rest => v.iterators ++ iteratorsAll rest

end

@[simp] theorem iteratorsAll_eq_flatMap (vs : List Value) :
    iteratorsAll vs = vs.flatMap iterators := by
  induction vs with
  | nil => rfl
  | cons v vs ih => simp [iteratorsAll, ih]

/-- The iterator is not to be had from the value. -/
def Lacks (id : CursorId) (v : Value) : Prop :=
  id ∉ v.iterators

variable {id : CursorId} {v w : Value}

theorem lacks_list {items : List Value} : (list items).Lacks id ↔ ∀ v ∈ items, v.Lacks id := by
  simp [Lacks, iterators]

theorem lacks_object {number : ObjectId} {name : String} {fields : List Value} :
    (object number name fields).Lacks id ↔ ∀ v ∈ fields, v.Lacks id := by
  simp [Lacks, iterators]

theorem lacks_iterator {id' : CursorId} : (iterator id').Lacks id ↔ id ≠ id' := by
  simp [Lacks, iterators]

theorem lacks_ofConstant (c : Constant) : (ofConstant c).Lacks id := by
  cases c <;> exact List.not_mem_nil

theorem lacks_zero (ty : Ty) : (zero ty).Lacks id := by
  unfold zero
  cases Constant.zero? ty with
  | none => exact List.not_mem_nil
  | some c => exact lacks_ofConstant c

/-- What a conversion makes of a value is the value, or it is a number or null. -/
theorem Lacks.convert? (hv : v.Lacks id) {ty : Ty} (hw : v.convert? ty = some w) :
    w.Lacks id := by
  have hscalar : ∀ {u : Value}, some u = some w → u.iterators = [] → w.Lacks id := by
    intro u hu hnone
    rw [Lacks, ← Option.some.inj hu, hnone]
    exact List.not_mem_nil
  have hkept : some v = some w → w.Lacks id := fun hw => Option.some.inj hw ▸ hv
  unfold Value.convert? at hw
  split at hw
  case h_11 => exact hkept hw
  case h_12 =>
    split at hw
    · exact hkept hw
    · cases hw
  all_goals first | exact hscalar hw rfl | cases hw

end Value

/-! ## Hosts -/

/-- The function makes up no iterators. What it gives back, raises or keeps for later calls, `holds`
says where, it has from its arguments or from earlier calls. -/
def HostFunction.Honest (holds : ω → CursorId → Prop) (f : HostFunction ω) : Prop :=
  ∀ args world id, (∀ v ∈ args, v.Lacks id) → ¬holds world id →
    (∀ v world', f args world = .ok v world' → v.Lacks id ∧ ¬holds world' id) ∧
      ∀ e world', f args world = .error e world' →
        (∀ v, e = .thrown v → v.Lacks id) ∧ ¬holds world' id

namespace Host

/-- The functions of the host make up no iterators. -/
def Honest (holds : ω → CursorId → Prop) (host : Host ω) : Prop :=
  ∀ name f, host.find? name = some f → f.Honest holds

variable {holds : ω → CursorId → Prop} {host : Host ω}

theorem honest_empty : (empty : Host ω).Honest holds :=
  nofun

/-- A call to an honest host is like that of an honest function; there may be none to call. -/
theorem Honest.call (h : host.Honest holds) (name : String) :
    HostFunction.Honest holds (host.call name) := by
  intro args world id hargs hworld
  unfold Host.call
  cases hf : host.find? name with
  | none => exact ⟨nofun, fun e world' he => by cases he; exact ⟨nofun, hworld⟩⟩
  | some f => exact h name f hf args world id hargs hworld

/-- A function that keeps nothing is honest if all iterators that it gives back or raises are in
its arguments. -/
theorem honest_of_subset {f : HostFunction ω}
    (h : ∀ args world v world',
      f args world = .ok v world' ∨ f args world = .error (.thrown v) world' →
        v.iterators ⊆ args.flatMap Value.iterators) : f.Honest fun _ _ => False := by
  intro args world id hargs _
  have hall : id ∉ args.flatMap Value.iterators := fun hid =>
    have ⟨v, hv, hid⟩ := List.mem_flatMap.mp hid
    hargs v hv hid
  exact ⟨fun v w hv => ⟨fun hid => hall (h args world v w (.inl hv) hid), nofun⟩,
    fun e w he => ⟨fun v hv hid => hall (h args world v w (.inr (hv ▸ he)) hid), nofun⟩⟩

/-- The standard functions keep texts and numbers only, and give back or raise no more than what
they are called with or a field of it. -/
theorem standard_honest : standard.Honest fun _ _ => False := by
  intro name f hf
  refine honest_of_subset fun args world v world' h => ?_
  obtain ⟨before, after, hfunctions, -⟩ := List.lookup_eq_some_iff.mp hf
  have hmem : (name, f) ∈ standard.functions :=
    hfunctions ▸ List.mem_append_right _ List.mem_cons_self
  simp only [standard, List.mem_cons, Prod.mk.injEq, List.not_mem_nil, or_false] at hmem
  have argument {w : Value} : w.iterators ⊆ [w].flatMap Value.iterators :=
    List.subset_append_left _ _
  rcases hmem with ⟨-, rfl⟩ | ⟨-, rfl⟩ | ⟨-, rfl⟩ | ⟨-, rfl⟩ | ⟨-, rfl⟩ | ⟨-, rfl⟩ | ⟨-, rfl⟩ |
    ⟨-, rfl⟩
  case inl | inr.inl =>
    rcases h with h | h <;> cases h
    exact List.nil_subset _
  case inr.inr.inl | inr.inr.inr.inl | inr.inr.inr.inr.inl =>
    unfold Standard.single at h
    split at h
    · rcases h with h | h <;> cases h <;> exact argument
    · rcases h with h | h <;> cases h
  case inr.inr.inr.inr.inr.inl => rcases h with h | h <;> cases h
  case inr.inr.inr.inr.inr.inr.inl =>
    unfold Standard.twice at h
    split at h
    · rcases h with h | h <;> cases h
      exact List.nil_subset _
    · rcases h with h | h <;> cases h
  case inr.inr.inr.inr.inr.inr.inr =>
    unfold Standard.field at h
    split at h
    next fields i =>
      generalize hfound : (if i < 0 then none else fields[i.toInt.toNat]?) = found at h
      cases found with
      | none => rcases h with h | h <;> cases h
      | some w =>
        rcases h with h | h <;> cases h
        obtain ⟨-, hfound⟩ := Option.ite_none_left_eq_some.mp hfound
        refine List.Subset.trans ?_ (List.subset_append_left _ _)
        rw [Value.iterators, Value.iteratorsAll_eq_flatMap]
        exact fun id hid => List.mem_flatMap.mpr ⟨v, List.mem_of_getElem? hfound, hid⟩
    · rcases h with h | h <;> cases h

end Host

/-! ## Machines -/

namespace Heap

/-- The iterator is one of those made between the two heaps. -/
def Makes (id : CursorId) (h h' : Heap) : Prop :=
  h.cursors.size ≤ id ∧ id < h'.cursors.size

theorem cursor_newIterator_of_ne {h : Heap} {id : CursorId} (hid : id ≠ h.cursors.size)
    (c : Cursor) : (h.newIterator c).2.cursor id = h.cursor id := by
  simp [newIterator, cursor, Array.getElem?_push, hid]

theorem cursor_of_le {h : Heap} {id : CursorId} (hid : h.cursors.size ≤ id) :
    h.cursor id = Cursor.ofItems [] false := by
  simp [cursor, hid]

end Heap

namespace Machine

/-- Nothing holds the iterator but the variable that owns it, if there is one. -/
structure Hides (holds : ω → CursorId → Prop) (id : CursorId) (owner : Option SymbolId)
    (m : Machine ω) : Prop where
  host : m.host.Honest holds
  world : ¬holds m.world id
  handling : ∀ v ∈ m.handling, v.Lacks id
  items : ∀ id', ∀ v ∈ (m.heap.cursor id').items, v.Lacks id
  env : ∀ y v, owner ≠ some y → m.env.get? y = some v → v.Lacks id

variable {holds : ω → CursorId → Prop} {id : CursorId} {owner : Option SymbolId} {m : Machine ω}

namespace Hides

theorem setCursor (h : m.Hides holds id owner) {id' : CursorId} {c : Cursor}
    (hc : c.items ⊆ (m.heap.cursor id').items) : (m.setCursor id' c).Hides holds id owner :=
  { h with
    items := fun id'' v hv => by
      by_cases heq : id' = id''
      · subst heq
        by_cases hlt : id' < m.heap.cursors.size
        · rw [Machine.setCursor, Heap.cursor_setCursor hlt] at hv
          exact h.items id' v (hc hv)
        · have hsize : (m.heap.setCursor id' c).cursors.size ≤ id' := by
            simpa [Heap.setCursor] using hlt
          rw [Machine.setCursor, Heap.cursor_of_le hsize] at hv
          cases hv
      · rw [Machine.setCursor, Heap.cursor_setCursor_of_ne heq] at hv
        exact h.items id'' v hv }

theorem newIterator (h : m.Hides holds id owner) {c : Cursor} (hc : ∀ v ∈ c.items, v.Lacks id) :
    ({ m with heap := (m.heap.newIterator c).2 } : Machine ω).Hides holds id owner :=
  { h with
    items := fun id' v hv => by
      dsimp only at hv
      by_cases heq : id' = m.heap.cursors.size
      · subst heq
        exact hc v (Heap.cursor_newIterator m.heap c ▸ hv)
      · exact h.items id' v (Heap.cursor_newIterator_of_ne heq c ▸ hv) }

theorem assign (h : m.Hides holds id owner) {s : Symbol} {v : Value} (hv : v.Lacks id) :
    (m.assign s v).Hides holds id owner :=
  { h with
    env := fun y w hy hw => by
      rw [Machine.assign, Env.get?_insert] at hw
      split at hw
      · cases hw
        exact hv
      · exact h.env y w hy hw }

/-- What hides the iterator from all variables hides it also if one of them owns it. -/
theorem assign_owner (h : m.Hides holds id none) (s : Symbol) (v : Value) :
    (m.assign s v).Hides holds id (some s.id) :=
  { h with
    env := fun y w hy hw => by
      rw [Machine.assign, Env.get?_insert, if_neg fun h => hy (congrArg some h.symm)] at hw
      exact h.env y w (by simp) hw }

theorem declare (h : m.Hides holds id owner) (locals : List Symbol) :
    (m.declare locals).Hides holds id owner := by
  induction locals generalizing m with
  | nil => exact h
  | cons s locals ih =>
    refine ih (m := { m with env := m.env.declare s }) { h with env := fun y w hy hw => ?_ }
    rw [Env.get?_declare] at hw
    split at hw
    · cases hw
      exact Value.lacks_zero s.ty
    · exact h.env y w hy hw

theorem beginHandling (h : m.Hides holds id owner) {v : Value} (hv : v.Lacks id) :
    (m.beginHandling v).Hides holds id owner :=
  { h with handling := List.forall_mem_cons.mpr ⟨hv, h.handling⟩ }

theorem endHandling (h : m.Hides holds id owner) : m.endHandling.Hides holds id owner :=
  { h with handling := fun v hv => h.handling v (List.mem_of_mem_tail hv) }

theorem enter (h : m.Hides holds id owner) (k : Handler Node) {v : Value} (hv : v.Lacks id) :
    (k.enter v m).Hides holds id owner := by
  unfold Handler.enter
  split
  · exact (h.assign hv).beginHandling hv
  · exact h.beginHandling hv

end Hides

/-- The machine hides the iterator still, and its cursor is where it was. -/
structure Hidden (holds : ω → CursorId → Prop) (id : CursorId) (owner : Option SymbolId)
    (m m' : Machine ω) : Prop where
  hides : m'.Hides holds id owner
  cursor : m'.heap.cursor id = m.heap.cursor id

theorem Hidden.trans {m' m'' : Machine ω} (h : m.Hidden holds id owner m')
    (h' : m'.Hidden holds id owner m'') : m.Hidden holds id owner m'' :=
  ⟨h'.hides, h'.cursor.trans h.cursor⟩

end Machine

/-! ## Evaluation -/

namespace Eval

/-- From a machine that hides the iterator, the program leads to one that does, and leaves its
cursor alone, unless it makes the iterator; its result is of a kind, and an exception lacks the
iterator. -/
structure Hides (holds : ω → CursorId → Prop) (id : CursorId) (owner : Option SymbolId) {α : Type}
    (P : α → Prop) (y : Eval ω α) : Prop where
  quiet : Quiet y
  ok : ∀ m a m', m.Hides holds id owner → y m = .ok a m' → ¬m.heap.Makes id m'.heap →
    m.Hidden holds id owner m' ∧ P a
  error : ∀ m v m', m.Hides holds id owner → y m = .error (.thrown v) m' → ¬m.heap.Makes id m'.heap →
    m.Hidden holds id owner m' ∧ v.Lacks id

namespace Hides

variable {holds : ω → CursorId → Prop} {id : CursorId} {owner : Option SymbolId} {α β : Type}
  {P : α → Prop} {Q : β → Prop}

theorem pure {a : α} (ha : P a) : (pure a : Eval ω α).Hides holds id owner P where
  quiet := .pure a
  ok m b m' hm h _ := by
    obtain ⟨rfl, rfl⟩ := pure_ok.mp h
    exact ⟨⟨hm, rfl⟩, ha⟩
  error m v m' _ h _ := (pure_error.mp h).elim

theorem throw {e : EvalError} (he : ∀ v, e = .thrown v → v.Lacks id) :
    (throw e : Eval ω α).Hides holds id owner P where
  quiet := .throw e
  ok m b m' _ h _ := (throw_ok.mp h).elim
  error m v m' hm h _ := by
    obtain ⟨hv, rfl⟩ := throw_error.mp h
    exact ⟨⟨hm, rfl⟩, he v hv.symm⟩

theorem andThen {y : Eval ω α} {f : α → Eval ω β} (hy : y.Hides holds id owner P)
    (hf : ∀ a, P a → (f a).Hides holds id owner Q) (hquiet : ∀ a, Quiet (f a)) :
    (y >>= f).Hides holds id owner Q where
  quiet := hy.quiet.andThen hquiet
  ok m b m' hm h hmakes := by
    obtain ⟨a, m₁, ha, hb⟩ := andThen_ok.mp h
    have hfirst := ((hy.quiet.ok ha).heap).size
    have hlater := ((hquiet a).ok hb).heap.size
    obtain ⟨hm₁, hpa⟩ := hy.ok m a m₁ hm ha fun h => hmakes ⟨h.1, h.2.trans_le hlater⟩
    obtain ⟨hm', hqb⟩ := (hf a hpa).ok m₁ b m' hm₁.hides hb fun h => hmakes ⟨hfirst.trans h.1, h.2⟩
    exact ⟨hm₁.trans hm', hqb⟩
  error m v m' hm h hmakes := by
    rcases andThen_error.mp h with h | ⟨a, m₁, ha, hb⟩
    · exact hy.error m v m' hm h hmakes
    · have hfirst := ((hy.quiet.ok ha).heap).size
      have hlater := ((hquiet a).error hb).heap.size
      obtain ⟨hm₁, hpa⟩ := hy.ok m a m₁ hm ha fun h => hmakes ⟨h.1, h.2.trans_le hlater⟩
      obtain ⟨hm', hv⟩ :=
        (hf a hpa).error m₁ v m' hm₁.hides hb fun h => hmakes ⟨hfirst.trans h.1, h.2⟩
      exact ⟨hm₁.trans hm', hv⟩

/-! ### The primitives -/

theorem newObject {name : String} {fields : List Value} (hfields : ∀ v ∈ fields, v.Lacks id) :
    (newObject name fields : Eval ω Value).Hides holds id owner (Value.Lacks id) where
  quiet := closed_quiet.newObject name fields
  ok m a m' hm h _ := by
    obtain ⟨rfl, rfl⟩ := modifyGet_ok.mp h
    exact ⟨⟨{ hm with }, rfl⟩, Value.lacks_object.mpr hfields⟩
  error m v m' _ h _ := (modifyGet_error.mp h).elim

theorem newIterator {c : Cursor} (hc : ∀ v ∈ c.items, v.Lacks id) :
    (newIterator c : Eval ω Value).Hides holds id owner (Value.Lacks id) where
  quiet := closed_quiet.newIterator c
  ok m a m' hm h hmakes := by
    obtain ⟨rfl, rfl⟩ := modifyGet_ok.mp h
    have hid : id ≠ m.heap.cursors.size := by
      rintro rfl
      exact hmakes ⟨le_rfl, by simp [Heap.newIterator]⟩
    exact ⟨⟨hm.newIterator hc, Heap.cursor_newIterator_of_ne hid c⟩,
      Value.lacks_iterator.mpr hid⟩
  error m v m' _ h _ := (modifyGet_error.mp h).elim

theorem read {s : Symbol} (hs : owner ≠ some s.id) :
    (read s : Eval ω Value).Hides holds id owner (Value.Lacks id) where
  quiet := closed_quiet.read s
  ok m a m' hm h _ := by
    rw [Eval.read, get_andThen] at h
    cases hv : m.env.get? s.id with
    | none =>
      rw [hv] at h
      cases h
    | some v =>
      rw [hv] at h
      cases h
      exact ⟨⟨hm, rfl⟩, hm.env s.id _ hs hv⟩
  error m v m' hm h _ := by
    rw [Eval.read, get_andThen] at h
    cases hv : m.env.get? s.id with
    | none =>
      rw [hv] at h
      cases h
    | some v =>
      rw [hv] at h
      cases h

theorem callHost {name : String} {args : List Value} (hargs : ∀ v ∈ args, v.Lacks id) :
    (callHost name args : Eval ω Value).Hides holds id owner (Value.Lacks id) where
  quiet := closed_quiet.callHost name args
  ok m a m' hm h _ := by
    have honest := (hm.host.call name args m.world id hargs hm.world).1
    unfold Eval.callHost at h
    cases hcall : m.host.call name args m.world with
    | ok v world =>
      rw [hcall] at h
      cases h
      obtain ⟨hv, hworld⟩ := honest _ world hcall
      exact ⟨⟨{ hm with world := hworld }, rfl⟩, hv⟩
    | error e world =>
      rw [hcall] at h
      cases h
  error m v m' hm h _ := by
    have honest := (hm.host.call name args m.world id hargs hm.world).2
    unfold Eval.callHost at h
    cases hcall : m.host.call name args m.world with
    | ok v world =>
      rw [hcall] at h
      cases h
    | error e world =>
      rw [hcall] at h
      cases h
      obtain ⟨hv, hworld⟩ := honest _ world hcall
      exact ⟨⟨{ hm with world := hworld }, rfl⟩, hv v rfl⟩

theorem moveNext {id' : CursorId} (hid : id ≠ id') :
    (moveNext id' : Eval ω Value).Hides holds id owner (Value.Lacks id) where
  quiet := closed_quiet.moveNext id'
  ok m a m' hm h _ := by
    obtain ⟨rfl, rfl⟩ := modifyGet_ok.mp h
    exact ⟨⟨hm.setCursor (m.heap.cursor id').items_moveNext,
      Heap.cursor_setCursor_of_ne hid.symm _⟩, List.not_mem_nil⟩
  error m v m' _ h _ := (modifyGet_error.mp h).elim

theorem current {id' : CursorId} :
    (current id' : Eval ω Value).Hides holds id owner (Value.Lacks id) where
  quiet := closed_quiet.current id'
  ok m a m' hm h _ := by
    rw [Eval.current, get_andThen] at h
    cases hv : (m.heap.cursor id').current with
    | none =>
      rw [hv] at h
      cases h
    | some v =>
      rw [hv] at h
      cases h
      refine ⟨⟨hm, rfl⟩, hm.items id' _ (List.mem_append_left _ ?_)⟩
      rw [hv]
      exact List.mem_singleton_self _
  error m v m' hm h _ := by
    rw [Eval.current, get_andThen] at h
    cases hv : (m.heap.cursor id').current with
    | none =>
      rw [hv] at h
      cases h
    | some v =>
      rw [hv] at h
      cases h

theorem dispose {v : Value} (hv : v.Lacks id) :
    (dispose v : Eval ω Value).Hides holds id owner (Value.Lacks id) where
  quiet := closed_quiet.dispose v
  ok m a m' hm h _ := by
    rw [dispose_eq] at h
    cases h
    refine ⟨?_, List.not_mem_nil⟩
    cases v with
    | null => exact ⟨hm, rfl⟩
    | iterator id' =>
      have hid := Value.lacks_iterator.mp hv
      have hmarked := hm.setCursor (c := (m.heap.cursor id').dispose) (List.Subset.refl _)
      exact ⟨{ hmarked with }, Heap.cursor_setCursor_of_ne hid.symm _⟩
    | _ => exact ⟨{ hm with }, rfl⟩
  error m w m' _ h _ := by
    rw [dispose_eq] at h
    cases h

/-! ### Operators -/

theorem divisionByZero : (divisionByZero : Eval ω Value).Hides holds id owner (Value.Lacks id) :=
  (newObject (List.forall_mem_nil _)).andThen
    (fun _ hv => .throw fun _ hw => EvalError.thrown.inj hw ▸ hv) fun _ => .throw _

theorem unary (op : UnaryOp) (v : Value) :
    (unary op v : Eval ω Value).Hides holds id owner (Value.Lacks id) := by
  unfold Eval.unary
  split
  · exact .pure List.not_mem_nil
  · exact .pure List.not_mem_nil
  · exact .pure List.not_mem_nil
  · exact .throw nofun

theorem arith (op : Arith) (a b : Value) :
    (arith op a b : Eval ω Value).Hides holds id owner (Value.Lacks id) := by
  unfold Eval.arith
  split
  · split
    · exact .pure List.not_mem_nil
    · exact divisionByZero
  · split
    · exact .pure List.not_mem_nil
    · exact divisionByZero
  · split
    · exact .pure List.not_mem_nil
    · exact .throw nofun
  · exact .throw nofun

theorem order (op : Order) (a b : Value) :
    (order op a b : Eval ω Value).Hides holds id owner (Value.Lacks id) := by
  unfold Eval.order
  split
  · exact .pure List.not_mem_nil
  · exact .pure List.not_mem_nil
  · exact .pure List.not_mem_nil
  · exact .throw nofun

theorem binary (op : BinaryOp) (a b : Value) :
    (binary op a b : Eval ω Value).Hides holds id owner (Value.Lacks id) := by
  unfold Eval.binary
  split
  · exact arith _ _ _
  · exact .pure List.not_mem_nil
  · exact .pure List.not_mem_nil
  · exact order _ _ _
  all_goals
    split
    · exact .pure List.not_mem_nil
    · exact .throw nofun

theorem convert {v : Value} (hv : v.Lacks id) (ty : Ty) :
    (convert v ty : Eval ω Value).Hides holds id owner (Value.Lacks id) := by
  unfold Eval.convert
  split
  next w hw => exact .pure (hv.convert? hw)
  · exact .throw nofun

theorem intrinsic (op : Intrinsic) {args : List Value} (hargs : ∀ v ∈ args, v.Lacks id) :
    (intrinsic op args : Eval ω Value).Hides holds id owner (Value.Lacks id) := by
  unfold Eval.intrinsic
  split
  · exact newIterator (Value.lacks_list.mp (List.forall_mem_singleton.mp hargs))
  · refine newIterator fun v hv => ?_
    obtain ⟨k, -, rfl⟩ := List.mem_map.mp hv
    exact List.not_mem_nil
  · exact moveNext (Value.lacks_iterator.mp (List.forall_mem_singleton.mp hargs))
  · exact current
  · exact dispose (List.forall_mem_singleton.mp hargs)
  · exact .pure List.not_mem_nil
  · exact .throw nofun

theorem construct (ty : Ty) {fields : List Value} (hfields : ∀ v ∈ fields, v.Lacks id) :
    (construct ty fields : Eval ω Value).Hides holds id owner (Value.Lacks id) := by
  unfold Eval.construct
  split
  · exact newObject hfields
  · exact .throw nofun

end Hides

end Eval

namespace Expr

variable {holds : ω → CursorId → Prop} {id : CursorId} {owner : Option SymbolId}

mutual

/-- An expression without the variable does not get hold of the iterator that the variable
hides. -/
theorem eval_hides (e : Expr) (he : ∀ s ∈ e.vars, owner ≠ some s.id) :
    (e.eval : Eval ω Value).Hides holds id owner (Value.Lacks id) := by
  cases e with
  | const c => exact .pure (Value.lacks_ofConstant c)
  | param p => exact .throw nofun
  | var s => exact .read (he s (List.mem_singleton_self s))
  | unary op operand =>
    exact (eval_hides operand he).andThen (fun _ _ => .unary _ _) fun _ => Eval.closed_quiet.unary _ _
  | binary op left right =>
    obtain ⟨hleft, hright⟩ := List.forall_mem_append.mp he
    refine (eval_hides left hleft).andThen (fun a ha => ?_) fun a => ?_
    · split
      · exact .pure ha
      · exact (eval_hides right hright).andThen (fun _ _ => .binary _ _ _)
          fun _ => Eval.closed_quiet.binary _ _ _
    · split
      · exact .pure a
      · exact (Eval.closed_quiet.eval right).andThen fun _ => Eval.closed_quiet.binary _ _ _
  | convert operand ty =>
    exact (eval_hides operand he).andThen (fun _ hv => .convert hv ty)
      fun _ => Eval.closed_quiet.convert _ _
  | intrinsic op args =>
    exact (evalAll_hides args he).andThen (fun _ hvs => .intrinsic op hvs)
      fun _ => Eval.closed_quiet.intrinsic _ _
  | call function args ty =>
    exact (evalAll_hides args he).andThen (fun _ hvs => .callHost hvs)
      fun _ => Eval.closed_quiet.callHost _ _
  | construct ty args =>
    exact (evalAll_hides args he).andThen (fun _ hvs => .construct ty hvs)
      fun _ => Eval.closed_quiet.construct _ _
  | list elem items =>
    exact (evalAll_hides items he).andThen (fun _ hvs => .pure (Value.lacks_list.mpr hvs))
      fun _ => .pure _

theorem evalAll_hides (es : List Expr) (hes : ∀ s ∈ varsAll es, owner ≠ some s.id) :
    (evalAll es : Eval ω (List Value)).Hides holds id owner fun vs => ∀ v ∈ vs, v.Lacks id := by
  cases es with
  | nil => exact .pure (List.forall_mem_nil _)
  | cons e es =>
    obtain ⟨he, hes⟩ := List.forall_mem_append.mp hes
    refine (eval_hides e he).andThen (fun v hv => ?_) fun v => ?_
    · exact (evalAll_hides es hes).andThen
        (fun vs hvs => .pure (List.forall_mem_cons.mpr ⟨hv, hvs⟩)) fun _ => .pure _
    · exact (Eval.closed_quiet.evalAll es).andThen fun _ => .pure _

end

end Expr

end StructuredFlow
