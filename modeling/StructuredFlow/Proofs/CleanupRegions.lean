import StructuredFlow.Proofs.GuardedRegions
import StructuredFlow.Proofs.Sessions

/-
  The law of cleanup regions. The block of a resource evaluates the producer, executes the body in a
  guarded region, and disposes of what the variable holds. A body that neither assigns nor binds the
  variable leaves it as it is, however it is executed and left (`Node.Avoids.maintains`), so what is
  disposed of is the producer's value, once (`Node.withCleanup_law`). This is so for both kinds of
  disposal: a resource that is held by reference is compared with null first.
-/

namespace StructuredFlow

variable {ω : Type}

open Exec Outcome

/-! ## Disposal -/

namespace Machine

variable {m : Machine ω}

/-- The machine after a value was disposed of: an iterator is marked, and anything but null is
logged. -/
def release (m : Machine ω) : Value → Machine ω
  | .null => m
  | .iterator id =>
    (m.setCursor id (m.heap.cursor id).dispose).logDisposal (Value.iterator id).disposalName
  | v => m.logDisposal v.disposalName

theorem disposeLog_release (m : Machine ω) (v : Value) :
    (m.release v).disposeLog =
      if v.isNull then m.disposeLog else m.disposeLog.push v.disposalName := by
  cases v <;> rfl

theorem disposed_release {id : CursorId} (hid : id < m.heap.cursors.size) :
    ((m.release (.iterator id)).heap.cursor id).disposed = true := by
  show ((m.heap.setCursor id (m.heap.cursor id).dispose).cursor id).disposed = true
  rw [Heap.cursor_setCursor hid]
  rfl

end Machine

theorem Eval.dispose_eq (v : Value) (m : Machine ω) : dispose v m = .ok .void (m.release v) := by
  cases v <;> rfl

/-! ## Nodes that leave a variable alone -/

/-- The node by itself neither assigns the variable with the number nor binds it. -/
structure Node.Avoids (id : SymbolId) (n : Node) : Prop where
  assigns : ∀ target value, n = .assign target value → target.id ≠ id
  binds : ∀ x ∈ n.binds, x.id ≠ id

/-- The variable has the value. -/
def Machine.Has (id : SymbolId) (v : Value) (m : Machine ω) : Prop :=
  m.env.get? id = some v

namespace Machine.Has

variable {id : SymbolId} {v : Value} {m : Machine ω}

theorem assign (s : Symbol) (v : Value) (m : Machine ω) : (m.assign s v).Has s.id v := by
  rw [Has, Machine.assign, Env.get?_insert, if_pos rfl]

theorem assign_of_ne (h : m.Has id v) {s : Symbol} (hs : s.id ≠ id) (w : Value) :
    (m.assign s w).Has id v := by
  rw [Has, Machine.assign, Env.get?_insert, if_neg hs.symm]
  exact h

/-- A variable that has a value keeps it when variables are declared. -/
theorem declare (h : m.Has id v) (locals : List Symbol) : (m.declare locals).Has id v := by
  induction locals generalizing m with
  | nil => exact h
  | cons x locals ih =>
    refine ih (m := { m with env := m.env.declare x }) ?_
    rw [Has, Env.get?_declare, if_neg fun hx => ?_]
    · exact h
    · obtain ⟨rfl, hnone⟩ := hx
      rw [Has, hnone] at h
      cases h

theorem of_env (h : m.Has id v) {m' : Machine ω} (henv : m'.env = m.env) : m'.Has id v := by
  rw [Has, henv]
  exact h

theorem regime (id : SymbolId) (v : Value) : Regime (Has (ω := ω) id v) fun _ _ => True where
  void _ := trivial
  constant _ _ := trivial
  later _ _ _ _ hv := hv
  handled _ _ _ _ := trivial
  endHandling _ hm := hm

end Machine.Has

/-- A node that avoids a variable leaves it with the value that it has. -/
theorem Node.Avoids.maintains {id : SymbolId} {n : Node} (h : n.Avoids id) (v : Value) :
    n.Maintains (Machine.Has (ω := ω) id v) fun _ _ => True where
  reads e _ m hm := by
    have hquiet := Eval.closed_quiet.eval (ω := ω) e
    exact ⟨fun w m' hw => ⟨hm.of_env (hquiet.ok hw).env, trivial⟩,
      fun w m' hw => ⟨hm.of_env (hquiet.error hw).env, trivial⟩⟩
  assign target value hn m w hm _ := hm.assign_of_ne (h.assigns target value hn) w
  declare locals _ _ m hm := hm.declare locals
  enter hd hhd m w hm _ := by
    unfold Handler.enter
    cases hbinding : hd.binding with
    | none => exact hm
    | some x =>
      refine hm.assign_of_ne (h.binds x ?_) w
      cases n with
      | attempt body handlers cleanup =>
        exact List.mem_flatMap.mpr ⟨hd, hhd, Option.mem_toList.mpr hbinding⟩
      | _ => exact absurd hhd List.not_mem_nil

/-- Passes of a body without handlers keep what its nodes keep. -/
theorem Passes.maintained {Good : Machine ω → Prop} {Known : Heap → Value → Prop} {body : Node}
    {d : Option Descent} {m m' : Machine ω} {calls : List (Call ω)} {flow : Flow}
    (h : Passes body [] d m calls flow m') (regime : Regime Good Known)
    (hbody : ∀ c ∈ body.subnodes, c.Maintains Good Known) (hd : Descent.Carries (Known m.heap) d)
    (hm : Good m) : Good m' ∧ flow.Carries (Known m'.heap) := by
  induction h with
  | last pass => exact (pass.runs.maintained regime hbody hd hm).1
  | again pass _ _ ih =>
    obtain ⟨hm₁, hflow⟩ := (pass.runs.maintained regime hbody hd hm).1
    exact ih hflow.descent hm₁

/-- A jump with which passes end does not lead into the body. -/
theorem Passes.leaves {body : Node} {handlers : List (Handler Node)} {d : Option Descent}
    {m m' : Machine ω} {calls : List (Call ω)} {l : LabelId} {v : Option Value}
    (h : Passes body handlers d m calls (.jump l v) m') : body.defines l = false := by
  generalize hflow : Flow.jump l v = flow at h
  induction h with
  | last _ leaves => exact leaves l v hflow.symm
  | again _ _ _ ih => exact ih hflow

/-! ## The region -/

namespace Node

variable {s : Symbol} {producer : Expr} {body : Node} {m m' : Machine ω} {calls : List (Call ω)}
  {flow : Flow}

/-- Evaluating the disposal of what the variable has. -/
theorem dispose_runs {v : Value} (hs : m.Has s.id v)
    (h : (eval (.intrinsic .dispose [.var s])).Runs none m calls flow m') :
    flow = .normal .void ∧ m' = m.release v := by
  have heval : (Expr.intrinsic .dispose [.var s]).eval m = .ok .void (m.release v) :=
    andThen_ok.mpr ⟨[v], m, andThen_ok.mpr ⟨v, m, eval_var hs, rfl⟩, Eval.dispose_eq v m⟩
  cases h with
  | tail inner =>
    rcases Turn.Traces.of_reading inner with ⟨a, m₁, hv, hdone⟩ | ⟨w, hv, -⟩
    · cases heval.symm.trans hv
      cases hdone
      exact ⟨rfl, rfl⟩
    · cases heval.symm.trans hv

/-- The cleanup of a region disposes of what the variable has, of either kind of type. -/
theorem disposal_runs {v : Value} (hs : m.Has s.id v)
    (h : (disposal s).Runs none m calls flow m') :
    flow = .normal .void ∧ m' = m.release v := by
  unfold disposal at h
  dsimp only at h
  split at h
  next =>
    have htest : (Expr.binary .notEqual (.var s) (.null s.ty)).eval m =
        .ok (.bool (!(v == .null))) m :=
      andThen_ok.mpr ⟨v, m, eval_var hs, rfl⟩
    cases h with
    | tail inner =>
      rcases Turn.Traces.of_reading inner with ⟨a, m₁, hv, hbranch⟩ | ⟨w, hv, -⟩
      · cases htest.symm.trans hv
        by_cases hnull : v = .null
        · subst hnull
          cases hbranch with
          | tail inner =>
            cases inner
            exact ⟨rfl, rfl⟩
        · have hpresent : (!(v == .null)) = true := by
            cases v <;> first | rfl | exact absurd rfl hnull
          rw [hpresent] at hbranch
          exact dispose_runs hs hbranch
      · cases htest.symm.trans hv
  next => exact dispose_runs hs h

/-- An assignment sets the variable to the value, or it ends with the exception of the
evaluation. -/
theorem assign_runs {target : Symbol} {value : Expr} {d : Option Descent}
    (h : (assign target value).Runs d m calls flow m') :
    (∃ v m₁, value.eval m = .ok v m₁ ∧ flow = .normal .void ∧ m' = m₁.assign target v) ∨
      ∃ v, value.eval m = .error (.thrown v) m' ∧ flow = .throw v := by
  cases h with
  | tail inner =>
    rcases Turn.Traces.of_reading inner with ⟨v, m₁, hv, hdone⟩ | ⟨v, hv, hflow, -⟩
    · cases hdone
      exact .inl ⟨v, m₁, hv, rfl, rfl⟩
    · exact .inr ⟨v, hv, hflow⟩

/-- A block of an assignment and a further node ends with the exception of the assignment, or goes
on with the node; so it does for good unless the node ends with a jump into itself. -/
theorem assigned_runs {n : Node}
    (h : (block [s] [assign s producer, n]).Runs none m calls flow m')
    (hjump : ∀ v (m₁ : Machine ω) calls₁ l w m₂,
      n.Runs none (m₁.assign s v) calls₁ (.jump l w) m₂ → n.defines l = false) :
    (∃ v, producer.eval (m.declare [s]) = .error (.thrown v) m' ∧ flow = .throw v) ∨
      ∃ v m₁ calls₁, producer.eval (m.declare [s]) = .ok v m₁ ∧
        n.Runs none (m₁.assign s v) calls₁ flow m' := by
  cases h with
  | tail inner =>
    obtain ⟨calls₁, flow₁, m₁, calls₂, rfl, hassign, later⟩ := Turn.traces_call_iff.mp inner
    rcases assign_runs hassign with ⟨v, m₂, hv, rfl, rfl⟩ | ⟨v, hv, rfl⟩
    · obtain ⟨calls₃, flow₂, m₃, calls₄, rfl, hn, later⟩ := Turn.traces_call_iff.mp later
      have hend : flow = flow₂ ∧ m' = m₃ := by
        cases flow₂ with
        | normal w =>
          cases later
          exact ⟨rfl, rfl⟩
        | throw w =>
          cases later
          exact ⟨rfl, rfl⟩
        | jump l w =>
          have hplace : placeOf l [assign s producer, n] = [] :=
            placeOf_eq_nil_iff.mpr (List.forall_mem_cons.mpr
              ⟨rfl, List.forall_mem_singleton.mpr (hjump v m₂ calls₃ l w m₃ hn)⟩)
          dsimp only [Waiting.resume] at later
          rw [hplace] at later
          cases later
          exact ⟨rfl, rfl⟩
      obtain ⟨rfl, rfl⟩ := hend
      exact .inr ⟨v, m₂, calls₃, hv, hn⟩
    · cases later
      exact .inl ⟨v, hv, rfl⟩

/-- A guarded region whose cleanup disposes of the variable, which has a value and keeps it: the
body's flow is that of the region, and the value is disposed of after the body. -/
theorem guarded_runs (hbody : ∀ n ∈ body.subnodes, n.Avoids s.id) {v : Value}
    (hs : m.Has s.id v)
    (h : (attempt body [] (some (disposal s))).Runs none m calls flow m') :
    ∃ calls₁ m₁, Passes body [] none m calls₁ flow m₁ ∧ m₁.Has s.id v ∧ m' = m₁.release v := by
  obtain ⟨-, calls₁, pending, m₁, calls₂, -, passes, leaves⟩ :=
    (attempt_runs_iff (d := none) nofun).mp h
  have hs₁ : m₁.Has s.id v :=
    (passes.maintained (Machine.Has.regime s.id v) (fun n hn => (hbody n hn).maintains v)
      (Descent.carries_none _) hs).1
  cases leaves with
  | plain absent => cases absent
  | entered present inside =>
    cases present
    rw [defines_disposal] at inside
    cases inside
  | cleaned present _ run =>
    cases present
    exact ⟨calls₁, m₁, passes, hs₁, (disposal_runs hs₁ run).2⟩
  | replaced present _ run own =>
    cases present
    exact absurd (disposal_runs hs₁ run).1 (own _)

/-- Execution of a cleanup region from its start. -/
theorem withCleanup_runs (hbody : ∀ n ∈ body.subnodes, n.Avoids s.id)
    (h : (withCleanup s producer body).Runs none m calls flow m') :
    (∃ v, producer.eval (m.declare [s]) = .error (.thrown v) m' ∧ flow = .throw v) ∨
      ∃ v m₁ calls₁ m₂, producer.eval (m.declare [s]) = .ok v m₁ ∧
        Passes body [] none (m₁.assign s v) calls₁ flow m₂ ∧ m₂.Has s.id v ∧
          m' = m₂.release v := by
  have hjump : ∀ v (m₁ : Machine ω) calls₁ l w m₂,
      (attempt body [] (some (disposal s))).Runs none (m₁.assign s v) calls₁ (.jump l w) m₂ →
        (attempt body [] (some (disposal s))).defines l = false := by
    intro v m₁ calls₁ l w m₂ hn
    obtain ⟨_, _, passes, -, -⟩ := guarded_runs hbody (Machine.Has.assign s v m₁) hn
    rw [defines_guarded]
    exact passes.leaves
  rcases assigned_runs h hjump with hraised | ⟨v, m₁, calls₁, hv, hn⟩
  · exact .inl hraised
  · obtain ⟨calls₂, m₂, passes, hs, rfl⟩ := guarded_runs hbody (Machine.Has.assign s v m₁) hn
    exact .inr ⟨v, m₁, calls₂, m₂, hv, passes, hs, rfl⟩

/-- The law of cleanup regions, for an execution from the start that ends with a flow. Either the
producer raises an exception, which is that of the region, and nothing more happens; or the body is
executed with the variable set to the producer's value, in passes as the jumps into it demand, and
after the last one this value is disposed of. The flow of the region is that of the last pass. -/
theorem withCleanup_law (hbody : ∀ n ∈ body.subnodes, n.Avoids s.id) {fuel : Nat}
    (h : (withCleanup s producer body).execWithin fuel none m = .ok flow m') :
    (∃ v, producer.eval (m.declare [s]) = .error (.thrown v) (m'.metered m.steps m.stepLimit) ∧
        flow = .throw v) ∨
      ∃ v m₁ calls m₂, producer.eval (m.declare [s]) = .ok v m₁ ∧
        Passes body [] none (m₁.assign s v) calls flow m₂ ∧ m₂.Has s.id v ∧
          m'.metered m.steps m.stepLimit = m₂.release v ∧
            m'.disposeLog =
              (if v.isNull then m₂.disposeLog else m₂.disposeLog.push v.disposalName) ∧
              ∀ id, v = .iterator id → id < m₂.heap.cursors.size →
                (m'.heap.cursor id).disposed = true := by
  obtain ⟨calls, hruns⟩ := runs_of_ok h
  refine (withCleanup_runs hbody hruns).imp_right ?_
  rintro ⟨v, m₁, calls₁, m₂, hv, passes, hs, hend⟩
  refine ⟨v, m₁, calls₁, m₂, hv, passes, hs, hend, ?_, ?_⟩
  · have hlog := congrArg Machine.disposeLog hend
    exact hlog.trans (m₂.disposeLog_release v)
  · rintro id rfl hid
    have hcursor := congrArg (fun m => (m.heap.cursor id).disposed) hend
    exact hcursor.trans (Machine.disposed_release hid)

/-- A resource that is held by reference, and a body that raises an exception. -/
theorem withCleanup_law_in_failure :
    let s : Symbol := ⟨1, some "file", .any⟩
    let m : Machine Unit := .new Host.empty () 6
    let v : Value := .str "text"
    let m' : Machine Unit :=
      { m with env := ⟨[(1, v)]⟩, disposeLog := #["str"], steps := 6 }
    (∃ w, (Expr.const (.str "text")).eval (m.declare [s]) =
        .error (.thrown w) (m'.metered m.steps m.stepLimit) ∧ Flow.throw v = .throw w) ∨
      ∃ w m₁ calls m₂, (Expr.const (.str "text")).eval (m.declare [s]) = .ok w m₁ ∧
        Passes (throw (.var s)) [] none (m₁.assign s w) calls (.throw v) m₂ ∧ m₂.Has s.id w ∧
          m'.metered m.steps m.stepLimit = m₂.release w ∧
            m'.disposeLog =
              (if w.isNull then m₂.disposeLog else m₂.disposeLog.push w.disposalName) ∧
              ∀ id, w = .iterator id → id < m₂.heap.cursors.size →
                (m'.heap.cursor id).disposed = true := by
  intro s m v m'
  have hbody : ∀ n ∈ (throw (.var s)).subnodes, n.Avoids s.id :=
    List.forall_mem_singleton.mpr ⟨nofun, nofun⟩
  obtain ⟨calls, hrun, hlength⟩ : ∃ calls,
      (withCleanup s (.const (.str "text")) (throw (.var s))).Runs none m calls (.throw v)
        (m'.metered 0 6) ∧ calls.length = 6 :=
    ⟨_, .tail (.call .done (.call (.call .done (.call (.tail .done) .done)) .done)), rfl⟩
  have h := hrun.execWithin_ok
  rw [hlength] at h
  exact withCleanup_law hbody h

end Node

end StructuredFlow
