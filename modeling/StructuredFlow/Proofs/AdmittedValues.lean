import StructuredFlow.Proofs.VariableValues

/-
  What a type says about the values in places of it, whatever operators are put on whatever operands
  (`Heap.Admits`). It is little: a bool, an `int` or a `long` is one, a range is one or null, and an
  iterator shows items of its kind; places of the other types may hold anything. This much is right
  for all expressions that do without host calls and conversions and that do not walk lists
  (`Expr.Plain`), apart from null constants: an operator that does not fit its operands gives either
  no value or one of type `void` (`Expr.Plain.eval_admits`).
-/

namespace StructuredFlow

open Outcome Machine

variable {ω : Type} {symbols : List Symbol} {m m' : Machine ω}

/-- The type is one of the truth values or of the numbers. -/
def Ty.isPrimitive : Ty → Bool
  | bool | int | long => true
  | _ => false

namespace Heap

/-- The value may stand in a place of the type, for all that can be said without knowing that
expressions are well typed. -/
def Admits (h : Heap) : Ty → Value → Prop
  | .bool, v => ∃ b, v = .bool b
  | .int, v => ∃ i, v = .int i
  | .long, v => ∃ i, v = .long i
  | .range, v => v = .null ∨ ∃ start stop, v = .range start stop
  | .iterator elem _, v =>
    v = .null ∨ ∃ id, v = .iterator id ∧ id < h.cursors.size ∧
      ∀ x ∈ (h.cursor id).items, h.Admits elem x
  | _, _ => True

variable {h h' : Heap} {ty : Ty} {v w : Value}

/-- Null may stand everywhere but in places of primitive types. -/
theorem admits_null_iff : h.Admits ty .null ↔ ty.isPrimitive = false := by
  cases ty with
  | bool | int | long => exact ⟨fun hnull => hnull.elim nofun, nofun⟩
  | range | iterator => exact ⟨fun _ => rfl, fun _ => .inl rfl⟩
  | _ => exact ⟨fun _ => rfl, fun _ => trivial⟩

theorem Admits.ne_null (hv : h.Admits ty v) (hty : ty.isPrimitive = true) : v ≠ .null := by
  rintro rfl
  cases hty.symm.trans (admits_null_iff.mp hv)

/-- Of primitive types all is known. -/
theorem Admits.conforms (hv : h.Admits ty v) (hty : ty.isPrimitive = true) : h.Conforms ty v := by
  cases ty with
  | bool | int | long => exact hv
  | _ => cases hty

theorem Admits.any (h : Heap) (v : Value) : h.Admits .any v :=
  trivial

theorem Conforms.admits (hv : h.Conforms ty v) : h.Admits ty v := by
  induction ty generalizing v with
  | bool | int | long | range => exact hv
  | iterator elem disposable ih =>
    exact hv.imp_right fun ⟨id, hid, hlt, hall⟩ => ⟨id, hid, hlt, fun x hx => ih (hall x hx)⟩
  | _ => trivial

theorem Evolves.admits (hh : h.Evolves h') (hv : h.Admits ty v) : h'.Admits ty v := by
  induction ty generalizing v with
  | iterator elem disposable ih =>
    refine hv.imp_right fun ⟨id, hid, hlt, hall⟩ => ?_
    exact ⟨id, hid, Nat.lt_of_lt_of_le hlt hh.size, fun x hx => ih (hall x (hh.items id hlt hx))⟩
  | _ => exact hv

theorem Admits.alike (hv : h.Admits ty v) (halike : v.Alike w) : h'.Admits ty w := by
  cases halike with
  | int i j | long i j | str i j =>
    cases ty <;> simp_all [Admits]

theorem storable_admits : Storable Admits where
  later hh hv := hh.admits hv
  zero h ty := (conforms_zero h ty).admits
  null hty := (conforms_null hty).admits
  accepted hv haccepts := by
    rcases Ty.accepts_iff.mp haccepts with rfl | ⟨rfl, -⟩
    · exact hv
    · exact .any _ _
  caught hv := (conforms_of_isInstanceOf hv).admits

end Heap

/-! ## Operators -/

namespace Eval

variable {v w a b : Value} {h h' : Heap}

theorem unary_admits {op : UnaryOp} {e : Expr} (hv : v = .null ∨ h.Admits e.type v)
    (hw : unary op v m = .ok w m') : h'.Admits (Expr.unary op e).type w := by
  cases op with
  | neg =>
    rcases hv with rfl | hv
    · cases hw
    · exact hv.alike (neg_ok hw)
  | not => exact not_ok hw

theorem binary_admits {op : BinaryOp} {l r : Expr} (ha : a = .null ∨ h.Admits l.type a)
    (hw : binary op a b m = .ok w m') : h'.Admits (Expr.binary op l r).type w := by
  cases op with
  | arith op =>
    rcases ha with rfl | ha
    · cases hw
    · exact ha.alike (arith_ok hw)
  | _ => exact binary_ok rfl hw

/-- What an operation on collections and iterators has done, if it gives a value. -/
inductive Performs (m : Machine ω) (w : Value) (m' : Machine ω) :
    Intrinsic → List Value → Prop
  | walkList {items : List Value} (made : newIterator (.ofItems items true) m = .ok w m') :
      Performs m w m' .getIterator [.list items]
  | walkRange {start stop : Int32}
      (made : newIterator (.ofItems (Value.rangeItems start stop) false) m = .ok w m') :
      Performs m w m' .getIterator [.range start stop]
  | moveNext {id : CursorId} (moved : moveNext id m = .ok w m') :
      Performs m w m' .moveNext [.iterator id]
  | current {id : CursorId} (stands : current id m = .ok w m') :
      Performs m w m' .current [.iterator id]
  | dispose {v : Value} (disposed : dispose v m = .ok w m') : Performs m w m' .dispose [v]
  | range {start stop : Int32} (gives : w = .range start stop) :
      Performs m w m' .range [.int start, .int stop]

theorem performs_of_ok {op : Intrinsic} {vs : List Value} (hw : intrinsic op vs m = .ok w m') :
    Performs m w m' op vs := by
  unfold intrinsic at hw
  split at hw
  · exact .walkList hw
  · exact .walkRange hw
  · exact .moveNext hw
  · exact .current hw
  · exact .dispose hw
  · exact .range (pure_ok.mp hw).1
  · exact (throw_ok.mp hw).elim

/-- An operation that does not fit its operand gives nothing, or it has the type `void`. A list that
is walked may show anything. -/
theorem intrinsic_admits {op : Intrinsic} {args : List Expr} {vs : List Value}
    (hlists : op = .getIterator → ∀ e ∈ args, ∀ elem, e.type ≠ .list elem)
    (hvs : List.Forall₂ (fun e v => v = .null ∨ m.heap.Admits e.type v) args vs)
    (hw : intrinsic op vs m = .ok w m') : m'.heap.Admits (Expr.intrinsic op args).type w := by
  cases performs_of_ok hw with
  | walkList made =>
    rcases hvs with _ | ⟨hv, _ | _⟩
    next e =>
      -- A list may still come out of an expression whose type says nothing, as `any` does; then the
      -- type of the iterator says nothing either.
      rw [Expr.type_getIterator]
      cases hty : e.type with
      | list elem => exact absurd hty (hlists rfl e List.mem_cons_self elem)
      | range =>
        rw [hty] at hv
        exact hv.elim nofun fun hv => hv.elim nofun nofun
      | _ => trivial
  | walkRange made =>
    rcases hvs with _ | ⟨-, _ | _⟩
    next e =>
      rw [Expr.type_getIterator]
      cases hty : e.type with
      | list elem => exact absurd hty (hlists rfl e List.mem_cons_self elem)
      | range => exact (newIterator_range_conforms made).admits
      | _ => trivial
  | moveNext moved => exact ⟨_, (modifyGet_ok.mp moved).1⟩
  | current stands =>
    rcases hvs with _ | ⟨hv, _ | _⟩
    next e =>
      rw [Expr.type_current]
      obtain ⟨hmem, rfl⟩ := current_ok stands
      cases hty : e.type with
      | iterator elem disposable =>
        rw [hty] at hv
        obtain ⟨id, hid, -, hitems⟩ := (hv.resolve_left nofun).resolve_left nofun
        obtain rfl := Value.iterator.inj hid
        exact hitems w hmem
      | _ => trivial
  | dispose => trivial
  | range gives => exact .inr ⟨_, _, gives⟩

end Eval

/-! ## Plain expressions -/

namespace Expr

/-- The expression does without host calls and conversions, walks no lists, and its variables are
among given ones. -/
inductive Plain (symbols : List Symbol) : Expr → Prop
  | const (c : Constant) : Plain symbols (const c)
  | param (p : Placeholder) : Plain symbols (param p)
  | var {s} (mem : s ∈ symbols) : Plain symbols (var s)
  | unary {op e} (operand : Plain symbols e) : Plain symbols (unary op e)
  | binary {op l r} (left : Plain symbols l) (right : Plain symbols r) :
      Plain symbols (binary op l r)
  | intrinsic {op args} (operands : ∀ e ∈ args, Plain symbols e)
      (lists : op = .getIterator → ∀ e ∈ args, ∀ elem, e.type ≠ .list elem) :
      Plain symbols (intrinsic op args)
  | construct {ty args} (operands : ∀ e ∈ args, Plain symbols e) : Plain symbols (construct ty args)
  | list {elem items} (operands : ∀ e ∈ items, Plain symbols e) : Plain symbols (list elem items)

mutual

/-- A plain expression gives what its type admits, unless it is a null constant. -/
theorem Plain.eval_admits {e : Expr} (he : e.Plain symbols) {m m' : Machine ω} {v : Value}
    (hm : m.Holds Heap.Admits symbols) (hv : e.eval m = .ok v m') :
    (∃ ty, e = null ty ∧ v = .null) ∨ m'.heap.Admits e.type v := by
  cases he with
  | const c =>
    obtain ⟨rfl, -⟩ := pure_ok.mp hv
    cases c with
    | null ty => exact .inl ⟨ty, rfl, rfl⟩
    | bool | int | long => exact .inr ⟨_, rfl⟩
    | str => exact .inr trivial
  | param p => exact (throw_ok.mp hv).elim
  | @var s mem =>
    obtain ⟨hs, rfl⟩ := Eval.read_ok hv
    exact .inr (hm s mem v hs)
  | @unary op operand hoperand =>
    -- An operand may be a null constant, of whatever type; then the operator fails.
    obtain ⟨a, m₁, ha, hv⟩ := andThen_ok.mp hv
    have ha := (hoperand.eval_admits hm ha).imp_left fun ⟨_, _, hnull⟩ => hnull
    exact .inr (Eval.unary_admits ha hv)
  | @binary op left right hleft =>
    obtain ⟨a, m₁, ha, hv⟩ := andThen_ok.mp hv
    have ha := (hleft.eval_admits hm ha).imp_left fun ⟨_, _, hnull⟩ => hnull
    rcases ite_run.mp hv with ⟨hdecides, hv⟩ | ⟨-, hv⟩
    · obtain ⟨rfl, -⟩ := pure_ok.mp hv
      exact .inr (Eval.decides_conforms hdecides).admits
    · obtain ⟨b, m₂, -, hv⟩ := andThen_ok.mp hv
      exact .inr (Eval.binary_admits ha hv)
  | @intrinsic op args hargs hlists =>
    obtain ⟨vs, m₁, hvs, hv⟩ := andThen_ok.mp hv
    exact .inr (Eval.intrinsic_admits hlists (evalAll_admits hargs hm hvs) hv)
  | construct =>
    obtain ⟨vs, m₁, -, hv⟩ := andThen_ok.mp hv
    exact .inr (Eval.construct_conforms hv).admits
  | list => exact .inr trivial

theorem evalAll_admits {es : List Expr} (hes : ∀ e ∈ es, e.Plain symbols) {m m' : Machine ω}
    {vs : List Value} (hm : m.Holds Heap.Admits symbols) (hvs : evalAll es m = .ok vs m') :
    List.Forall₂ (fun e v => v = .null ∨ m'.heap.Admits e.type v) es vs := by
  cases es with
  | nil =>
    obtain ⟨rfl, -⟩ := pure_ok.mp hvs
    exact .nil
  | cons e es =>
    obtain ⟨he, hes⟩ := List.forall_mem_cons.mp hes
    obtain ⟨v, m₁, hv, hvs⟩ := andThen_ok.mp hvs
    obtain ⟨ws, m₂, hws, hvs⟩ := andThen_ok.mp hvs
    obtain ⟨rfl, rfl⟩ := pure_ok.mp hvs
    have hlater := (evalAll_quiet es).ok hws
    refine .cons ((he.eval_admits hm hv).imp (fun ⟨_, _, hnull⟩ => hnull) hlater.heap.admits) ?_
    exact evalAll_admits hes (hm.evaluated Heap.storable_admits ((eval_quiet e).ok hv)) hws

end

end Expr

end StructuredFlow
