import StructuredFlow.Proofs.HeapKept
import StructuredFlow.Proofs.Preserved

/-
  What every execution keeps, whatever the program is and however it ends: the host, the step
  limit, the exceptions being handled, that a variable which has a value has one, and that the
  cursors in the heap only go on (`Machine.Stays`). A handler pushes its exception and takes it back
  on every way out, so the exceptions being handled are as they were (`Exec.stays_endHandling`); the
  rest is that nothing which a node does by itself changes more (`Node.execWithin_keeping`).
-/

namespace StructuredFlow

open Outcome

namespace Env

/-- A variable that has a value keeps having one. -/
def Grows (env env' : Env) : Prop :=
  ∀ id, env.contains id = true → env'.contains id = true

theorem contains_insert {env : Env} {id id' : SymbolId} {v : Value} :
    (env.insert id v).contains id' = true ↔ id' = id ∨ env.contains id' = true := by
  rw [contains, get?_insert]
  by_cases h : id' = id <;> simp [h, contains]

theorem contains_declare {env : Env} {s : Symbol} {id : SymbolId} :
    (env.declare s).contains id = true ↔ id = s.id ∨ env.contains id = true := by
  unfold declare
  split
  next h =>
    constructor
    · exact .inr
    · intro hid
      rcases hid with rfl | hid
      · exact h
      · exact hid
  next => exact contains_insert

theorem contains_foldl_declare {locals : List Symbol} {env : Env} {id : SymbolId} :
    (locals.foldl declare env).contains id = true ↔
      (∃ x ∈ locals, x.id = id) ∨ env.contains id = true := by
  induction locals generalizing env with
  | nil => simp
  | cons x locals ih =>
    rw [List.foldl_cons, ih, contains_declare]
    simp only [List.mem_cons, exists_eq_or_imp]
    rw [eq_comm, or_assoc, or_left_comm]

end Env

namespace Machine

variable {ω : Type}

theorem declare_append (m : Machine ω) (ls ls' : List Symbol) :
    m.declare (ls ++ ls') = (m.declare ls).declare ls' := by
  unfold Machine.declare
  rw [List.foldl_append]

/-- What no execution changes, and that variables and heap go on from what they were. -/
structure Stays (m m' : Machine ω) : Prop where
  host : m'.host = m.host
  stepLimit : m'.stepLimit = m.stepLimit
  handling : m'.handling = m.handling
  env : m.env.Grows m'.env
  heap : m.heap.Evolves m'.heap

namespace Stays

variable {m m' m'' : Machine ω}

theorem refl (m : Machine ω) : m.Stays m :=
  ⟨rfl, rfl, rfl, fun _ h => h, .refl _⟩

theorem trans (h : m.Stays m') (h' : m'.Stays m'') : m.Stays m'' where
  host := h'.host.trans h.host
  stepLimit := h'.stepLimit.trans h.stepLimit
  handling := h'.handling.trans h.handling
  env id hid := h'.env id (h.env id hid)
  heap := h.heap.trans h'.heap

theorem assign (m : Machine ω) (s : Symbol) (v : Value) : m.Stays (m.assign s v) :=
  ⟨rfl, rfl, rfl, fun _ h => Env.contains_insert.mpr (.inr h), .refl _⟩

theorem declare (m : Machine ω) (locals : List Symbol) : m.Stays (m.declare locals) :=
  ⟨rfl, rfl, rfl, fun _ h => Env.contains_foldl_declare.mpr (.inr h), .refl _⟩

end Stays

end Machine

open Machine

variable {ω : Type} {α β : Type}

/-- Whatever the program does, it keeps what no execution changes. -/
abbrev Keeping {ε : Type} (x : EStateM ε (Machine ω) α) : Prop :=
  Preserves Stays x

/-! ## Evaluation -/

namespace Machine

/-- What an evaluation keeps: all but the heap, which goes on, the world of the host and the log. -/
structure Evaluated (m m' : Machine ω) : Prop where
  host : m'.host = m.host
  stepLimit : m'.stepLimit = m.stepLimit
  handling : m'.handling = m.handling
  env : m'.env = m.env
  heap : m.heap.Evolves m'.heap

namespace Evaluated

variable {m m' m'' : Machine ω}

theorem refl (m : Machine ω) : m.Evaluated m :=
  ⟨rfl, rfl, rfl, rfl, .refl _⟩

theorem trans (h : m.Evaluated m') (h' : m'.Evaluated m'') : m.Evaluated m'' where
  host := h'.host.trans h.host
  stepLimit := h'.stepLimit.trans h.stepLimit
  handling := h'.handling.trans h.handling
  env := h'.env.trans h.env
  heap := h.heap.trans h'.heap

theorem stays (h : m.Evaluated m') : m.Stays m' :=
  ⟨h.host, h.stepLimit, h.handling, fun _ hid => h.env ▸ hid, h.heap⟩

end Evaluated

end Machine

namespace Eval

/-- Programs that keep what evaluations keep. -/
abbrev Quiet (x : Eval ω α) : Prop :=
  Preserves Evaluated x

theorem Quiet.andThen {x : Eval ω α} {f : α → Eval ω β} (hx : Quiet x) (hf : ∀ a, Quiet (f a)) :
    Quiet (x >>= f) :=
  Preserves.andThen (R := Evaluated) (fun _ _ _ => Evaluated.trans) hx hf

theorem Quiet.pure (a : α) : Quiet (pure a : Eval ω α) :=
  preserves_pure Evaluated.refl a

theorem Quiet.throw (e : EvalError) : Quiet (throw e : Eval ω α) :=
  preserves_throw Evaluated.refl e

theorem closed_quiet : Closed (ω := ω) fun x => Quiet x :=
  closed_preserves Evaluated.refl (fun _ _ _ => Evaluated.trans)
    (fun _ _ h => ⟨rfl, rfl, rfl, rfl, h⟩) (fun _ _ => ⟨rfl, rfl, rfl, rfl, .refl _⟩)
    fun _ _ => ⟨rfl, rfl, rfl, rfl, .refl _⟩

theorem Quiet.keeping {x : Eval ω α} (hx : Quiet x) : Keeping x :=
  hx.mono fun _ _ => Evaluated.stays

end Eval

theorem Expr.eval_keeping (e : Expr) : Keeping (e.eval : Eval ω Value) :=
  (Eval.closed_quiet.eval e).keeping

theorem Expr.evalAll_keeping (es : List Expr) : Keeping (evalAll es : Eval ω (List Value)) :=
  (Eval.closed_quiet.evalAll es).keeping

/-! ## Execution -/

namespace Handler

variable (h : Handler Node) (exception : Value) (m : Machine ω)

theorem host_enter : (h.enter exception m).host = m.host := by
  unfold enter
  split <;> rfl

theorem stepLimit_enter : (h.enter exception m).stepLimit = m.stepLimit := by
  unfold enter
  split <;> rfl

theorem handling_enter : (h.enter exception m).handling = exception :: m.handling := by
  unfold enter
  split <;> rfl

theorem env_enter : m.env.Grows (h.enter exception m).env := by
  unfold enter
  split
  · exact (Stays.assign m _ _).env
  · exact fun _ hid => hid

theorem heap_enter : (h.enter exception m).heap = m.heap := by
  unfold enter
  split <;> rfl

/-- The variable of a handler has a value in it. -/
theorem contains_enter {s : Symbol} (hs : h.binding = some s) :
    (h.enter exception m).env.contains s.id = true := by
  unfold enter
  rw [hs]
  exact Env.contains_insert.mpr (.inl rfl)

end Handler

namespace Exec

/-- A step is counted and nothing else. -/
theorem tick_ok {m m' : Machine ω} {u : Unit} (h : tick m = .ok u m') :
    m' = { m with steps := m.steps + 1 } := by
  unfold tick at h
  dsimp only at h
  split at h
  · cases h
  · cases h
    rfl

/-- Only the limit stops the count. -/
theorem tick_error {m m' : Machine ω} {e : Halt} (h : tick m = .error e m') :
    e = .failed (.stepLimit m.stepLimit) := by
  unfold tick at h
  dsimp only at h
  split at h
  · cases h
    rfl
  · cases h

theorem tick_keeping : Keeping (tick : Exec ω Unit) :=
  tick_preserves fun _ _ => ⟨rfl, rfl, rfl, fun _ h => h, .refl _⟩

theorem selects_keeping (discriminant : Value) (values : List Expr) :
    Keeping (select.selects discriminant values : Eval ω Bool) :=
  (Eval.closed_quiet.selects discriminant values).keeping

/-- The choice of an arm is an evaluation. -/
theorem choice_quiet (value : Expr) (cases : List (Arm Node)) :
    Eval.Quiet (value.eval >>= fun v => select v cases : Eval ω (Option Node)) :=
  (Eval.closed_quiet.eval value).andThen fun v => Eval.closed_quiet.select v cases

theorem choice_keeping (value : Expr) (cases : List (Arm Node)) :
    Keeping (value.eval >>= fun v => select v cases : Eval ω (Option Node)) :=
  (choice_quiet value cases).keeping

/-- What a handler pushes is taken back behind it. -/
theorem stays_endHandling (h : Handler Node) (exception : Value) (m m' : Machine ω)
    (hm' : (h.enter exception m).Stays m') : m.Stays m'.endHandling where
  host := hm'.host.trans (h.host_enter exception m)
  stepLimit := hm'.stepLimit.trans (h.stepLimit_enter exception m)
  handling := by
    show m'.handling.tail = m.handling
    rw [hm'.handling, h.handling_enter]
    rfl
  env id hid := hm'.env id (h.env_enter exception m id hid)
  heap := h.heap_enter exception m ▸ hm'.heap

variable {run : Runner ω} (hrun : ∀ n d, Keeping (run n d))
include hrun

theorem sequence_keeping (body : List Node) (fuel : Nat) (rest : List Node) (d : Option Descent)
    (last : Value) : Keeping (sequence run body fuel rest d last) :=
  sequence_preserves Stays.refl (fun _ _ _ => Stays.trans) (fun n _ => hrun n) (fun n _ => hrun n)
    fuel d last

theorem rounds_keeping (body : Node) (leave next : Label) (fuel : Nat) (d : Option Descent) :
    Keeping (rounds run body leave next fuel d) :=
  rounds_preserves Stays.refl (fun _ _ _ => Stays.trans) (hrun body) leave next fuel d

theorem arms_keeping (bodies : List Node) (fuel : Nat) (first : Option Node)
    (d : Option Descent) : Keeping (arms run bodies fuel first d) :=
  arms_preserves Stays.refl (fun _ _ _ => Stays.trans) (fun n _ => hrun n) (fun n _ => hrun n)
    fuel d

theorem dispatch_keeping (handlers : List (Handler Node)) (flow : Flow) :
    Keeping (dispatch run handlers flow) :=
  dispatch_preserves Stays.refl (fun h _ => hrun h.body none) (fun h _ => stays_endHandling h) flow

theorem cleaning_keeping (cleanup : Option Node) (pending : Flow) :
    Keeping (cleaning run cleanup pending) :=
  cleaning_preserves Stays.refl (fun _ _ _ => Stays.trans) (fun n _ => hrun n) pending

theorem region_keeping (body : Node) (handlers : List (Handler Node)) (cleanup : Option Node)
    (fuel : Nat) (d : Option Descent) : Keeping (region run body handlers cleanup fuel d) :=
  region_preserves Stays.refl (fun _ _ _ => Stays.trans) (hrun body) (fun h _ => hrun h.body none)
    (fun n _ => hrun n) (fun h _ => stays_endHandling h) fuel d

end Exec

namespace Node

theorem carries_stays : Carries (ω := ω) Stays fun _ => True where
  refl := Stays.refl
  trans _ _ _ := Stays.trans
  steps _ _ := ⟨rfl, rfl, rfl, fun _ h => h, .refl _⟩
  eval := Expr.eval_keeping
  choice := Exec.choice_keeping
  assign target _ _ m v := .assign m target v
  declare locals _ _ m := .declare m locals
  handle _ _ _ _ h _ := Exec.stays_endHandling h
  children _ _ _ _ := trivial

/-- The execution of any node, in any machine and with any place to be found, ends in a machine
that has what no execution changes. -/
theorem execWithin_keeping (fuel : Nat) (n : Node) (d : Option Descent) :
    Keeping (n.execWithin fuel d : Exec ω Flow) :=
  execWithin_preserves carries_stays fuel trivial d

end Node

end StructuredFlow
