import Mathlib.Data.List.Forall2
import StructuredFlow.Proofs.Conformance
import StructuredFlow.Proofs.MachineKept
import StructuredFlow.Proofs.WellTyped

/-
  Evaluation of well-typed expressions. In a machine whose variables hold values of their types, the
  value of a well-typed expression is of its type (`Expr.eval_conforms`), as long as each host
  function that is called on the way gives a value of the type that the call declares. Which
  evaluations are on the way is said by `Expr.Starts`.
-/

namespace StructuredFlow

open Outcome Machine

variable {ω : Type} {symbols : List Symbol} {m m' : Machine ω}

/-- The variables hold values of their types. -/
def Machine.Conforms (symbols : List Symbol) (m : Machine ω) : Prop :=
  ∀ s ∈ symbols, ∀ v, m.env.get? s.id = some v → m.heap.Conforms s.ty v

theorem Machine.Conforms.evaluated (hm : m.Conforms symbols) (h : m.Evaluated m') :
    m'.Conforms symbols :=
  fun s hs v hv => h.heap.conforms (hm s hs v (h.env ▸ hv))

/-! ## Operators -/

/-- Two numbers of one width, or two texts. -/
inductive Value.Alike : Value → Value → Prop
  | int (i j : Int32) : Alike (.int i) (.int j)
  | long (i j : Int64) : Alike (.long i) (.long j)
  | str (s t : String) : Alike (.str s) (.str t)

/-- Which number or which text it is, is no matter of type. -/
theorem Heap.Conforms.alike {h h' : Heap} {ty : Ty} {v w : Value} (hv : h.Conforms ty v)
    (halike : v.Alike w) : h'.Conforms ty w := by
  cases halike with
  | int i j | long i j | str i j =>
    cases ty <;> simp_all [Heap.Conforms, Value.isInstanceOf]

namespace Eval

variable {v w a b : Value} {h h' : Heap}

/-- A variable that is read has a value. -/
theorem read_ok {s : Symbol} (hv : read s m = .ok v m') : m.env.get? s.id = some v ∧ m' = m := by
  rw [read, get_andThen] at hv
  cases hs : m.env.get? s.id with
  | none =>
    rw [hs] at hv
    exact (throw_ok.mp hv).elim
  | some w =>
    rw [hs] at hv
    obtain ⟨rfl, rfl⟩ := pure_ok.mp hv
    exact ⟨rfl, rfl⟩

theorem neg_ok (hw : unary .neg v m = .ok w m') : v.Alike w := by
  cases v with
  | int i =>
    cases hw
    exact .int i _
  | long i =>
    cases hw
    exact .long i _
  | _ => cases hw

theorem not_ok (hw : unary .not v m = .ok w m') : ∃ b, w = .bool b := by
  cases v with
  | bool b =>
    cases hw
    exact ⟨_, rfl⟩
  | _ => cases hw

theorem unary_conforms {op : UnaryOp} {e : Expr} (hv : h.Conforms e.type v)
    (hw : unary op v m = .ok w m') : h'.Conforms (Expr.unary op e).type w := by
  cases op with
  | neg => exact hv.alike (neg_ok hw)
  | not => exact not_ok hw

theorem divisionByZero_ok : (divisionByZero : Eval ω Value) m = .ok w m' → False := by
  intro hw
  obtain ⟨_, _, -, hw⟩ := andThen_ok.mp hw
  exact throw_ok.mp hw

/-- What arithmetic gives is of the kind of its first operand. -/
theorem arith_ok {op : Arith} (hw : arith op a b m = .ok w m') : a.Alike w := by
  cases a with
  | int i =>
    cases b with
    | int j =>
      dsimp only [arith] at hw
      cases hc : op.compute? i j with
      | some c =>
        rw [hc] at hw
        exact (pure_ok.mp hw).1 ▸ .int i c
      | none =>
        rw [hc] at hw
        exact (divisionByZero_ok hw).elim
    | _ => cases hw
  | long i =>
    cases b with
    | long j =>
      dsimp only [arith] at hw
      cases hc : op.compute? i j with
      | some c =>
        rw [hc] at hw
        exact (pure_ok.mp hw).1 ▸ .long i c
      | none =>
        rw [hc] at hw
        exact (divisionByZero_ok hw).elim
    | _ => cases hw
  | str s =>
    cases b with
    | str t =>
      cases op with
      | add =>
        cases hw
        exact .str s _
      | _ => cases hw
    | _ => cases hw
  | _ => cases hw

theorem order_ok {op : Order} (hw : order op a b m = .ok w m') : ∃ c, w = .bool c := by
  unfold order at hw
  split at hw
  · exact ⟨_, (pure_ok.mp hw).1⟩
  · exact ⟨_, (pure_ok.mp hw).1⟩
  · exact ⟨_, (pure_ok.mp hw).1⟩
  · exact (throw_ok.mp hw).elim

/-- What a comparison or a logical operator gives is a bool. -/
theorem binary_ok {op : BinaryOp} (hop : op.isArithmetic = false)
    (hw : binary op a b m = .ok w m') : ∃ c, w = .bool c := by
  cases op with
  | arith op => cases hop
  | equal | notEqual => exact ⟨_, (pure_ok.mp hw).1⟩
  | order op => exact order_ok hw
  | and | or =>
    cases b with
    | bool b => exact ⟨b, (pure_ok.mp hw).1⟩
    | _ => cases hw

theorem decides_ok {op : BinaryOp} (ha : decides op a = true) :
    op.isArithmetic = false ∧ ∃ b, a = .bool b := by
  cases op with
  | and | or =>
    cases a with
    | bool b => exact ⟨rfl, b, rfl⟩
    | _ => cases ha
  | _ => cases ha

theorem binary_conforms {op : BinaryOp} {l r : Expr} (ha : h.Conforms l.type a)
    (hw : binary op a b m = .ok w m') : h'.Conforms (Expr.binary op l r).type w := by
  cases op with
  | arith op => exact ha.alike (arith_ok hw)
  | _ => exact binary_ok rfl hw

theorem decides_conforms {op : BinaryOp} {l r : Expr} (ha : decides op a = true) :
    h.Conforms (Expr.binary op l r).type a := by
  obtain ⟨hop, hbool⟩ := decides_ok ha
  cases op with
  | arith op => cases hop
  | _ => exact hbool

theorem convert_conforms {e : Expr} {ty : Ty} (hconverts : e.type.convertsTo ty = true)
    (hv : m.heap.Conforms e.type v) (hw : convert v ty m = .ok w m') : m'.heap.Conforms ty w := by
  unfold convert at hw
  cases hconverted : v.convert? ty with
  | some v' =>
    rw [hconverted] at hw
    obtain ⟨rfl, rfl⟩ := pure_ok.mp hw
    exact hv.converted hconverts hconverted
  | none =>
    rw [hconverted] at hw
    exact (throw_ok.mp hw).elim

theorem construct_conforms {ty : Ty} {fields : List Value} (hw : construct ty fields m = .ok w m') :
    m'.heap.Conforms ty w := by
  cases ty with
  | object name =>
    obtain ⟨rfl, -⟩ := modifyGet_ok.mp hw
    exact .inr ⟨_, _, rfl⟩
  | _ => exact (throw_ok.mp hw).elim

/-- An iterator stands at one of its items. -/
theorem current_ok {id : CursorId} (hw : current id m = .ok w m') :
    w ∈ (m.heap.cursor id).items ∧ m' = m := by
  rw [current, get_andThen] at hw
  cases hcurrent : (m.heap.cursor id).current with
  | none =>
    rw [hcurrent] at hw
    exact (throw_ok.mp hw).elim
  | some v =>
    rw [hcurrent] at hw
    obtain ⟨rfl, rfl⟩ := pure_ok.mp hw
    refine ⟨List.mem_append_left _ ?_, rfl⟩
    rw [hcurrent]
    exact List.mem_singleton_self _

theorem newIterator_conforms {c : Cursor} {element : Ty} {disposable : Bool}
    (hitems : ∀ x ∈ c.items, m.heap.Conforms element x) (hw : newIterator c m = .ok w m') :
    m'.heap.Conforms (.iterator element disposable) w := by
  obtain ⟨rfl, rfl⟩ := modifyGet_ok.mp hw
  refine .inr ⟨m.heap.cursors.size, rfl, ?_, fun x hx => ?_⟩
  · show _ < (m.heap.newIterator c).2.cursors.size
    simp [Heap.newIterator]
  · rw [Heap.cursor_newIterator] at hx
    exact (Heap.Evolves.newIterator m.heap c).conforms (hitems x hx)

/-- The iterator over a range shows numbers. -/
theorem newIterator_range_conforms {start stop : Int32} {disposable : Bool}
    (hw : newIterator (.ofItems (Value.rangeItems start stop) false) m = .ok w m') :
    m'.heap.Conforms (.iterator .int disposable) w := by
  refine newIterator_conforms (fun x hx => ?_) hw
  obtain ⟨k, -, rfl⟩ := List.mem_map.mp hx
  exact ⟨_, rfl⟩

theorem dispose_ok (hw : dispose v m = .ok w m') : w = .void := by
  unfold dispose at hw
  cases v with
  | null => exact (pure_ok.mp hw).1
  | iterator id =>
    obtain ⟨_, _, -, hw⟩ := andThen_ok.mp hw
    obtain ⟨_, _, -, hw⟩ := andThen_ok.mp hw
    exact (pure_ok.mp hw).1
  | _ =>
    obtain ⟨_, _, -, hw⟩ := andThen_ok.mp hw
    exact (pure_ok.mp hw).1

/-- An operation on operands of types that it is meant for. -/
theorem intrinsic_conforms {op : Intrinsic} {args : List Expr} {vs : List Value}
    (hop : op.DefinedOn (args.map Expr.type))
    (hvs : List.Forall₂ (fun e v => m.heap.Conforms e.type v) args vs)
    (hw : intrinsic op vs m = .ok w m') : m'.heap.Conforms (Expr.intrinsic op args).type w := by
  have hvs : List.Forall₂ m.heap.Conforms (args.map Expr.type) vs :=
    List.forall₂_map_left_iff.mpr hvs
  have htype : ∀ e, args.map Expr.type = [e] → Expr.headType? args = some e := fun e he => by
    rw [Expr.headType?_eq, ← List.head?_map, he]
    rfl
  generalize args.map Expr.type = types at hop hvs htype
  cases hop with
  | iterateList elem =>
    rcases hvs with _ | ⟨hv, _ | _⟩
    have hty : (Expr.intrinsic .getIterator args).type = .iterator elem true := by
      simp only [Expr.type, htype _ rfl]
      rfl
    rw [hty]
    rcases hv with rfl | ⟨items, rfl, hitems⟩
    · cases hw
    · exact newIterator_conforms (c := .ofItems items true) hitems hw
  | iterateRange =>
    rcases hvs with _ | ⟨hv, _ | _⟩
    have hty : (Expr.intrinsic .getIterator args).type = .iterator .int false := by
      simp only [Expr.type, htype _ rfl]
      rfl
    rw [hty]
    rcases hv with rfl | ⟨start, stop, rfl⟩
    · cases hw
    · exact newIterator_range_conforms hw
  | moveNext elem disposable =>
    rcases hvs with _ | ⟨hv, _ | _⟩
    rcases hv with rfl | ⟨id, rfl, -⟩
    · cases hw
    · exact ⟨_, (modifyGet_ok.mp hw).1⟩
  | current elem disposable =>
    rcases hvs with _ | ⟨hv, _ | _⟩
    have hty : (Expr.intrinsic .current args).type = elem := by
      simp only [Expr.type, htype _ rfl]
      rfl
    rw [hty]
    rcases hv with rfl | ⟨id, rfl, -, hitems⟩
    · cases hw
    · obtain ⟨hmem, rfl⟩ := current_ok hw
      exact hitems w hmem
  | dispose ty =>
    rcases hvs with _ | ⟨hv, _ | _⟩
    exact dispose_ok hw
  | range =>
    rcases hvs with _ | ⟨⟨start, rfl⟩, _ | ⟨⟨stop, rfl⟩, _ | _⟩⟩
    exact .inr ⟨start, stop, (pure_ok.mp hw).1⟩

end Eval

/-! ## Evaluations on the way -/

namespace Expr

/-- The operands that have been evaluated settle the value. -/
def isSettledBy : Expr → List Value → Bool
  | binary op _ _, [a] => Eval.decides op a
  | _, _ => false

/-- The evaluation of an expression in a machine has the evaluation of another one in it: that of an
operand, once the operands before it have been evaluated and do not settle the value, or an
evaluation further inside. -/
inductive Starts : Expr → Machine ω → Expr → Machine ω → Prop
  | here {e m} : Starts e m e m
  | operand {e before x after m vs m₁ e' m'} (place : e.children = before ++ x :: after)
      (given : evalAll before m = .ok vs m₁) (unsettled : e.isSettledBy vs = false)
      (later : Starts x m₁ e' m') : Starts e m e' m'

variable {e e' e'' : Expr} {m'' : Machine ω}

theorem Starts.trans (h : e.Starts m e' m') (h' : e'.Starts m' e'' m'') : e.Starts m e'' m'' := by
  induction h with
  | here => exact h'
  | operand place given unsettled _ ih => exact .operand place given unsettled (ih h')

theorem evalAll_quiet (es : List Expr) : Eval.Quiet (evalAll es : Eval ω (List Value)) :=
  Eval.closed_quiet.evalAll es

theorem eval_quiet (e : Expr) : Eval.Quiet (e.eval : Eval ω Value) :=
  Eval.closed_quiet.eval e

theorem Starts.evaluated (h : e.Starts m e' m') : m.Evaluated m' := by
  induction h with
  | here => exact .refl _
  | operand _ given _ _ ih => exact ((evalAll_quiet _).ok given).trans ih

theorem WellTyped.children (h : e.WellTyped symbols) : ∀ x ∈ e.children, x.WellTyped symbols := by
  cases h with
  | const | param | var => exact nofun
  | unary operand | convert operand => exact List.forall_mem_singleton.mpr operand
  | binary left right =>
    exact List.forall_mem_cons.mpr ⟨left, List.forall_mem_singleton.mpr right⟩
  | intrinsic operands | call operands | construct operands | list operands => exact operands

/-- Each host function that the evaluation calls, if it gives a value, gives one of the type that
the call declares. -/
def CallsConform (e : Expr) (m : Machine ω) : Prop :=
  ∀ function args ty m₁ v m₂, e.Starts m (.call function args ty) m₁ →
    (call function args ty).eval m₁ = .ok v m₂ → m₂.heap.Conforms ty v

theorem CallsConform.starts (h : e.CallsConform m) (hs : e.Starts m e' m') : e'.CallsConform m' :=
  fun _ _ _ _ _ _ hcall => h _ _ _ _ _ _ (hs.trans hcall)

/-- The same of expressions that are evaluated one after the other. -/
def AllCallsConform (es : List Expr) (m : Machine ω) : Prop :=
  ∀ before x after vs m₁, es = before ++ x :: after → evalAll before m = .ok vs m₁ →
    x.CallsConform m₁

theorem CallsConform.operands (h : e.CallsConform m) (he : ∀ vs, e.isSettledBy vs = false) :
    AllCallsConform e.children m :=
  fun _ _ _ vs _ place given => h.starts (.operand place given (he vs) .here)

theorem AllCallsConform.head {x : Expr} {es : List Expr} (h : AllCallsConform (x :: es) m) :
    x.CallsConform m :=
  h [] x es [] m rfl rfl

theorem AllCallsConform.tail {x : Expr} {es : List Expr} {v : Value}
    (h : AllCallsConform (x :: es) m) (hx : x.eval m = .ok v m') : AllCallsConform es m' := by
  rintro before y after vs m₁ rfl given
  refine h (x :: before) y after (v :: vs) m₁ rfl ?_
  exact andThen_ok.mpr ⟨v, m', hx, andThen_ok.mpr ⟨vs, m₁, given, rfl⟩⟩

/-! ## Soundness -/

/-- What corresponds to something in the list on the left. -/
theorem exists_of_mem_right {α β : Type} {R : α → β → Prop} {xs : List α} {ys : List β}
    (h : List.Forall₂ R xs ys) {y : β} (hy : y ∈ ys) : ∃ x ∈ xs, R x y := by
  induction h with
  | nil => exact absurd hy List.not_mem_nil
  | @cons x y' xs ys hxy _ ih =>
    rcases List.mem_cons.mp hy with rfl | hy
    · exact ⟨x, List.mem_cons_self, hxy⟩
    · exact (ih hy).imp fun x hx => ⟨List.mem_cons_of_mem _ hx.1, hx.2⟩

mutual

/-- The value of a well-typed expression is of its type. -/
theorem eval_conforms (e : Expr) {m m' : Machine ω} {v : Value} (he : e.WellTyped symbols)
    (hm : m.Conforms symbols) (hcalls : e.CallsConform m) (hv : e.eval m = .ok v m') :
    m'.heap.Conforms e.type v := by
  cases he with
  | const reference =>
    obtain ⟨rfl, -⟩ := pure_ok.mp hv
    exact Heap.conforms_ofConstant reference
  | param p => exact (throw_ok.mp hv).elim
  | @var s mem =>
    obtain ⟨hs, rfl⟩ := Eval.read_ok hv
    exact hm s mem v hs
  | @unary op operand hoperand =>
    obtain ⟨a, m₁, ha, hv⟩ := andThen_ok.mp hv
    have hcalls := hcalls.operands fun _ => rfl
    exact Eval.unary_conforms (eval_conforms operand hoperand hm hcalls.head ha) hv
  | @binary op left right hleft =>
    obtain ⟨a, m₁, ha, hv⟩ := andThen_ok.mp hv
    have place : (binary op left right).children = [] ++ left :: [right] := rfl
    have ha := eval_conforms left hleft hm (hcalls.starts (.operand place rfl rfl .here)) ha
    rcases ite_run.mp hv with ⟨hdecides, hv⟩ | ⟨-, hv⟩
    · obtain ⟨rfl, -⟩ := pure_ok.mp hv
      exact Eval.decides_conforms hdecides
    · obtain ⟨b, m₂, -, hv⟩ := andThen_ok.mp hv
      exact Eval.binary_conforms ha hv
  | @convert operand ty hoperand converts =>
    obtain ⟨a, m₁, ha, hv⟩ := andThen_ok.mp hv
    have hcalls := hcalls.operands fun _ => rfl
    exact Eval.convert_conforms converts (eval_conforms operand hoperand hm hcalls.head ha) hv
  | @intrinsic op args hargs defined =>
    obtain ⟨vs, m₁, hvs, hv⟩ := andThen_ok.mp hv
    have hcalls := hcalls.operands fun _ => rfl
    exact Eval.intrinsic_conforms defined (evalAll_conforms args hargs hm hcalls hvs) hv
  | call => exact hcalls _ _ _ _ _ _ .here hv
  | construct =>
    obtain ⟨vs, m₁, -, hv⟩ := andThen_ok.mp hv
    exact Eval.construct_conforms hv
  | @list elem items hitems accepted =>
    obtain ⟨vs, m₁, hvs, hv⟩ := andThen_ok.mp hv
    obtain ⟨rfl, rfl⟩ := pure_ok.mp hv
    have hall := evalAll_conforms items hitems hm (hcalls.operands fun _ => rfl) hvs
    refine .inr ⟨vs, rfl, fun x hx => ?_⟩
    obtain ⟨e, he, hconforms⟩ := exists_of_mem_right hall hx
    exact hconforms.accepted (accepted e he)

/-- The values of well-typed expressions are of their types, also once the later ones are there. -/
theorem evalAll_conforms (es : List Expr) {m m' : Machine ω} {vs : List Value}
    (hes : ∀ e ∈ es, e.WellTyped symbols) (hm : m.Conforms symbols)
    (hcalls : AllCallsConform es m) (hvs : evalAll es m = .ok vs m') :
    List.Forall₂ (fun e v => m'.heap.Conforms e.type v) es vs := by
  cases es with
  | nil =>
    obtain ⟨rfl, -⟩ := pure_ok.mp hvs
    exact .nil
  | cons e es =>
    obtain ⟨he, hes⟩ := List.forall_mem_cons.mp hes
    obtain ⟨v, m₁, hv, hvs⟩ := andThen_ok.mp hvs
    obtain ⟨ws, m₂, hws, hvs⟩ := andThen_ok.mp hvs
    obtain ⟨rfl, rfl⟩ := pure_ok.mp hvs
    have hlater := (evalAll_quiet es).ok hws
    refine .cons (hlater.heap.conforms (eval_conforms e he hm hcalls.head hv)) ?_
    exact evalAll_conforms es hes (hm.evaluated ((eval_quiet e).ok hv)) (hcalls.tail hv) hws

end

end Expr

end StructuredFlow
