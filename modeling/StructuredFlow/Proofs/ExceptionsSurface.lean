import StructuredFlow.Proofs.AbruptEnds
import StructuredFlow.Proofs.EvaluationFails
import StructuredFlow.Proofs.TurnsFollowed

/-
  Exceptions surface at nodes. Wherever in an execution an evaluation raises an exception, the node
  that evaluates ends with it as its flow; then the guarded regions around get it, and if none
  handles it, it is the flow of the whole (`Node.Surfaces`). Any other cause stops the whole
  execution on the spot. No outcome says that an exception was raised and is no flow, which is shown
  along the turns of an execution (`Turn.Ends.not_thrown`), where each node is done by itself.
-/

namespace StructuredFlow

variable {ω : Type}

open Outcome Machine Exec Node

/-! ## No exception is a cause to stop -/

namespace Turn

/-- The turn is not done with an exception that is no flow. -/
def Settles (t : Turn ω) : Prop :=
  ∀ v m, t ≠ .done (.error (.thrown v) m)

theorem settles_reading {α : Type} {x : EStateM.Result EvalError (Machine ω) α}
    {next : α → Machine ω → Turn ω} (h : ∀ a m, (next a m).Settles) : (reading x next).Settles := by
  cases x with
  | ok a m => exact h a m
  | error e m => cases e <;> exact fun _ _ => nofun

theorem settles_row (body rest : List Node) (d : Option Descent) (last : Value) (m : Machine ω) :
    (row body rest d last m).Settles := by
  cases rest <;> exact fun _ _ => nofun

theorem settles_arm (bodies : List Node) (arm : Option Node) (d : Option Descent)
    (m : Machine ω) : (Turn.arm bodies arm d m).Settles := by
  cases arm <;> exact fun _ _ => nofun

theorem settles_region (body : Node) (handlers : List (Handler Node)) (cleanup : Option Node)
    (d : Option Descent) (m : Machine ω) : (region body handlers cleanup d m).Settles := by
  unfold region
  split <;> exact fun _ _ => nofun

theorem settles_clean (cleanup : Option Node) (pending : Flow) (m : Machine ω) :
    (clean cleanup pending m).Settles := by
  cases cleanup <;> exact fun _ _ => nofun

theorem settles_leaveRegion (body : Node) (handlers : List (Handler Node))
    (cleanup : Option Node) (flow : Flow) (m : Machine ω) :
    (leaveRegion body handlers cleanup flow m).Settles := by
  cases flow with
  | jump l v =>
    dsimp only [leaveRegion]
    split
    · exact settles_region _ _ _ _ _
    · exact settles_clean _ _ _
  | _ => exact settles_clean _ _ _

end Turn

theorem Call.begin_settles (c : Call ω) : c.begin.Settles := by
  obtain ⟨n, d, m⟩ := c
  cases n with
  | block locals body => exact Turn.settles_row _ _ _ _ _
  | branch test yes no =>
    cases d with
    | some s => exact fun _ _ => nofun
    | none =>
      refine Turn.settles_reading fun v m => ?_
      cases v <;> exact fun _ _ => nofun
  | goto target value =>
    cases value with
    | none => exact fun _ _ => nofun
    | some e => exact Turn.settles_reading fun _ _ _ _ => nofun
  | switch value cases default =>
    cases d with
    | some s => exact Turn.settles_arm _ _ _ _
    | none => exact Turn.settles_reading fun _ _ => Turn.settles_arm _ _ _ _
  | attempt body handlers cleanup => exact Turn.settles_region _ _ _ _ _
  | eval e | assign target e | throw e => exact Turn.settles_reading fun _ _ _ _ => nofun
  | rethrow =>
    dsimp only [Call.begin]
    split <;> exact fun _ _ => nofun
  | nop | loop body leave next | label target default => exact fun _ _ => nofun

theorem Waiting.resume_settles (w : Waiting) {r : Report ω}
    (h : ∀ v m, r ≠ .error (.thrown v) m) : (w.resume r).Settles := by
  cases r with
  | error e m =>
    have he : ∀ v, e ≠ .thrown v := fun v hv => h v m (hv ▸ rfl)
    cases w <;> exact fun v m' h' => he v (by cases h'; rfl)
  | ok flow m =>
    cases w with
    | row body rest =>
      cases flow with
      | normal v => exact Turn.settles_row _ _ _ _ _
      | throw v => exact fun _ _ => nofun
      | jump l v =>
        dsimp only [Waiting.resume]
        split
        · exact fun _ _ => nofun
        · exact Turn.settles_row _ _ _ _ _
    | rounds body leave next =>
      cases flow with
      | jump l v =>
        dsimp only [Waiting.resume]
        split
        · exact fun _ _ => nofun
        · split
          · exact fun _ _ => nofun
          · split <;> exact fun _ _ => nofun
      | _ => exact fun _ _ => nofun
    | arms bodies =>
      cases flow with
      | jump l v =>
        dsimp only [Waiting.resume]
        split <;> exact fun _ _ => nofun
      | _ => exact fun _ _ => nofun
    | guarded body handlers cleanup =>
      cases flow with
      | throw v =>
        dsimp only [Waiting.resume]
        split
        · exact fun _ _ => nofun
        · exact Turn.settles_clean _ _ _
      | normal v => exact Turn.settles_leaveRegion body handlers cleanup (.normal v) m
      | jump l v => exact Turn.settles_leaveRegion body handlers cleanup (.jump l v) m
    | handling body handlers cleanup => exact Turn.settles_leaveRegion _ _ _ _ _
    | cleaning pending => cases flow <;> exact fun _ _ => nofun

/-- What a turn comes to is not an exception that is no flow. -/
theorem Turn.Ends.not_thrown {t : Turn ω} {k : Nat} {r : Report ω} (h : t.Ends k r)
    (ht : t.Settles) (v : Value) (m : Machine ω) : r ≠ .error (.thrown v) m := by
  induction h generalizing v m with
  | done => exact fun hr => ht v m (hr ▸ rfl)
  | tail _ ih => exact ih (Call.begin_settles _) v m
  | call _ _ ihinner ihlater =>
    exact ihlater (Waiting.resume_settles _ (ihinner (Call.begin_settles _))) v m

theorem Node.execWithin_not_thrown (fuel : Nat) (n : Node) (d : Option Descent) (m : Machine ω)
    (v : Value) (m' : Machine ω) : n.execWithin fuel d m ≠ .error (.failed (.thrown v)) m' := by
  intro h
  rcases execWithin_follows fuel m.stepLimit ⟨n, d, m⟩ m.steps with
    ⟨k, r, hends, -, hx⟩ | ⟨⟨e, m'', hx, he⟩, -⟩
  · have hr := hx.symm.trans h
    cases r with
    | ok flow m₁ => cases hr
    | error e m₁ =>
      obtain ⟨rfl, -⟩ : e = .thrown v ∧ _ := by
        cases hr
        exact ⟨rfl, trivial⟩
      exact hends.not_thrown (fun _ _ => nofun) v m₁ rfl
  · have hr := hx.symm.trans h
    rcases he with rfl | rfl <;> cases hr

/-! ## Exceptions at regions -/

namespace Call

variable {fuel : Nat} {c c₁ : Call ω} {v : Value} {m m₁ : Machine ω}

/-- In the execution of a guarded region, its body ends with an exception. -/
def BodyThrows (fuel : Nat) (c : Call ω) (v : Value) (m : Machine ω) : Prop :=
  ∃ body handlers cleanup m₁, c.node = .attempt body handlers cleanup ∧
    tick c.machine = .ok () m₁ ∧
    Exec.BodyThrows (execWithin fuel) body handlers cleanup fuel c.descent m₁ v m

/-- An exception leaves a node. If the node has a cleanup, that is called first, and when it ends
normally, or there is none, the node ends with the exception. -/
structure Leaves (fuel : Nat) (c : Call ω) (v : Value) (m : Machine ω) : Prop where
  cleans : ∀ n, c.node.cleanup = some n →
    Calls (fuel + 1) c.node c.descent c.machine none ⟨n, none, m⟩
  cleaned : ∀ n, c.node.cleanup = some n → ∀ w m₁, n.execWithin fuel none m = .ok (.normal w) m₁ →
    c.result (execWithin (fuel + 1)) = .ok (.throw v) m₁
  plain : c.node.cleanup = none → c.result (execWithin (fuel + 1)) = .ok (.throw v) m

theorem Leaves.of_region {body : Node} {handlers : List (Handler Node)} {cleanup : Option Node}
    (hnode : c.node = .attempt body handlers cleanup) (ticked : tick c.machine = .ok () m₁)
    (h : RegionLeaves (execWithin fuel) body handlers cleanup fuel c.descent m₁ v m) :
    c.Leaves fuel v m := by
  obtain ⟨n, d, m₀⟩ := c
  dsimp only at hnode ticked h
  subst hnode
  have hresult : Call.result (execWithin (fuel + 1)) ⟨.attempt body handlers cleanup, d, m₀⟩ =
      region (execWithin fuel) body handlers cleanup fuel d m₁ := by
    rw [Call.result, execWithin, step, andThen_of_ok ticked]
  constructor
  · exact fun n hn => .attempt ticked (h.cleans n hn)
  · exact fun n hn w m₂ hw => hresult.trans (h.cleaned n hn w m₂ hw)
  · exact fun hn => hresult.trans (h.plain hn)

/-- An exception of the body goes to the first handler that is meant for it. -/
theorem BodyThrows.handled (h : c.BodyThrows fuel v m) {hd : Handler Node}
    (found : c.node.handlers.find? (v.isInstanceOf ·.kind) = some hd) :
    Calls (fuel + 1) c.node c.descent c.machine (some (hd, v)) ⟨hd.body, none, hd.enter v m⟩ := by
  obtain ⟨body, handlers, cleanup, m₁, hnode, ticked, hthrows⟩ := h
  rw [hnode] at found ⊢
  exact .attempt ticked (hthrows.handled found)

/-- An exception of the body that no handler is meant for leaves the region. -/
theorem BodyThrows.leaves (h : c.BodyThrows fuel v m)
    (none : c.node.handlers.find? (v.isInstanceOf ·.kind) = none) : c.Leaves fuel v m := by
  obtain ⟨body, handlers, cleanup, m₁, hnode, ticked, hthrows⟩ := h
  rw [hnode] at none
  exact .of_region hnode ticked (hthrows.leaves none)

/-- An exception of a handler leaves the region of the handler. -/
theorem handler_throws {entry : Handler Node × Value}
    (hc : Calls (fuel + 1) c.node c.descent c.machine (some entry) c₁)
    (h : c₁.result (execWithin fuel) = .ok (.throw v) m) : c.Leaves fuel v m.endHandling := by
  obtain ⟨n, d, m₀⟩ := c
  dsimp only at hc
  cases hc with
  | attempt ticked call => exact .of_region rfl ticked (call.handler_throws h)

/-- An exception out of anything else below a node is what the node ends with, or that of a body. -/
theorem part_throws (hc : Calls (fuel + 1) c.node c.descent c.machine none c₁)
    (h : c₁.result (execWithin fuel) = .ok (.throw v) m) :
    c.BodyThrows fuel v m ∨
      (c.node.IsRegion → c.node.cleanup = some c₁.node) ∧
        c.result (execWithin (fuel + 1)) = .ok (.throw v) m := by
  obtain ⟨n, d, m₀⟩ := c
  dsimp only at hc
  by_cases hn : n.IsRegion
  · obtain ⟨body, handlers, cleanup, rfl⟩ := hn
    cases hc with
    | attempt ticked call =>
      refine (call.throws h).imp (fun hbody => ⟨_, _, _, _, rfl, ticked, hbody⟩) ?_
      rintro ⟨hcleanup, hregion⟩
      refine ⟨fun _ => hcleanup, ?_⟩
      rw [Call.result, execWithin, step, andThen_of_ok ticked]
      exact hregion
  · exact .inr ⟨fun hregion => absurd hregion hn, (hc.abrupt hn (h ▸ .throw v m)).trans h⟩

end Call

/-- Neither a handler nor a cleanup of the node is for the exception. -/
def Node.LetsThrough (v : Value) (n : Node) : Prop :=
  n.handlers.find? (v.isInstanceOf ·.kind) = none ∧ n.cleanup = none

/-- Through nodes that let it, an exception goes up unchanged. -/
theorem Node.Visits.unhandled {fuel fuel' : Nat} {c c' : Call ω} {around : List Node}
    {caught : List (Handler Node × Value)} (h : Visits fuel c fuel' around caught c') {v : Value}
    {m' : Machine ω} (hthrow : c'.result (execWithin fuel') = .ok (.throw v) m')
    (haround : ∀ n ∈ around, n.LetsThrough v) :
    c.result (execWithin fuel) =
      .ok (.throw v) { m' with handling := c.machine.handling } := by
  induction h with
  | here =>
    rw [handling_restored ((execWithin_keeping _ _ _).ok hthrow).handling]
    exact hthrow
  | @inside fuel c entered c₁ fuel' around caught c' call _ ih =>
    have hinner := ih hthrow fun n hn => haround n (List.mem_append_left _ hn)
    obtain ⟨hnone, hplain⟩ := haround c.node (List.mem_append_right _ (List.mem_singleton_self _))
    have hpassed : ∃ m₁, c.result (execWithin (fuel + 1)) = .ok (.throw v) m₁ ∧
        ∃ handling, m₁ = { m' with handling } := by
      cases entered with
      | some entry => exact ⟨_, (Call.handler_throws call hinner).plain hplain, _, rfl⟩
      | none =>
        rcases Call.part_throws call hinner with hbody | ⟨-, hresult⟩
        · exact ⟨_, (hbody.leaves hnone).plain hplain, _, rfl⟩
        · exact ⟨_, hresult, _, rfl⟩
    obtain ⟨m₁, hresult, handling, rfl⟩ := hpassed
    rw [hresult, ← ((execWithin_keeping _ _ _).ok hresult).handling]

/-! ## Whole executions -/

namespace Node

/-- The execution of a node from its start executes the call, with some fuel left. -/
def Executes (n : Node) (m : Machine ω) (fuel : Nat) (around : List Node)
    (caught : List (Handler Node × Value)) (c : Call ω) : Prop :=
  Visits (m.stepLimit - m.steps + 1) ⟨n, none, m⟩ fuel around caught c

variable {n : Node} {m m' : Machine ω} {fuel : Nat} {around : List Node}
  {caught : List (Handler Node × Value)} {c : Call ω}

/-- There is fuel for whatever is executed. -/
theorem Executes.fuel_eq (h : n.Executes m fuel around caught c) : ∃ less, fuel = less + 1 := by
  have hleft := Visits.stepsLeft_lt h (Nat.lt_succ_self _)
  exact ⟨fuel - 1, (Nat.sub_add_cancel (Nat.one_le_of_lt hleft)).symm⟩

theorem exec_of_error {cause : EvalError}
    (h : n.execWithin (m.stepLimit - m.steps + 1) none m = .error (.failed cause) m') :
    n.exec m = .error cause m' := by
  rw [exec, h]

theorem exec_of_ok {flow : Flow}
    (h : n.execWithin (m.stepLimit - m.steps + 1) none m = .ok flow m') :
    n.exec m = .ok flow m' := by
  rw [exec, h]

/-- In the execution of a node, exceptions are flows of nodes and no causes to stop, whichever
evaluation raises them, and handlers and cleanups get to see them. -/
structure Surfaces (n : Node) (m : Machine ω) : Prop where
  /-- The execution does not stop for an exception. -/
  not_thrown : ∀ v m', n.exec m ≠ .error (.thrown v) m'
  /-- An exception that an evaluation raises is the flow of the node that evaluates. -/
  raises : ∀ {fuel around caught c}, n.Executes m fuel around caught c → ∀ {e m₁ v m₂},
    c.Evaluates e m₁ → e.eval m₁ = .error (.thrown v) m₂ →
      c.result (execWithin fuel) = .ok (.throw v) m₂
  /-- Any other cause stops the execution with the machine that the evaluation has left: no step is
  counted any more, so no handler and no cleanup is started. -/
  aborts : ∀ {fuel around caught c}, n.Executes m fuel around caught c → ∀ {e m₁ cause m₂},
    c.Evaluates e m₁ → e.eval m₁ = .error cause m₂ → (∀ v, cause ≠ .thrown v) →
      n.exec m = .error cause { m₂ with handling := m.handling }
  /-- An exception of the body of a region goes to the first handler that is meant for it, and with
  no such handler it leaves the region. -/
  handled : ∀ {fuel around caught c}, n.Executes m (fuel + 1) around caught c → ∀ {v m₁},
    c.BodyThrows fuel v m₁ →
      (∀ h, c.node.handlers.find? (v.isInstanceOf ·.kind) = some h →
        Calls (fuel + 1) c.node c.descent c.machine (some (h, v)) ⟨h.body, none, h.enter v m₁⟩) ∧
      (c.node.handlers.find? (v.isInstanceOf ·.kind) = none → c.Leaves fuel v m₁)
  /-- An exception of a handler leaves the region of the handler. -/
  rethrown : ∀ {fuel around caught c}, n.Executes m (fuel + 1) around caught c →
    ∀ {entry c₁ v m₁}, Calls (fuel + 1) c.node c.descent c.machine (some entry) c₁ →
      c₁.result (execWithin fuel) = .ok (.throw v) m₁ → c.Leaves fuel v m₁.endHandling
  /-- An exception of anything else below a node, other than the body of a region, is the flow of
  the node. -/
  passes : ∀ {fuel around caught c}, n.Executes m (fuel + 1) around caught c → ∀ {c₁ v m₁},
    Calls (fuel + 1) c.node c.descent c.machine none c₁ →
      c₁.result (execWithin fuel) = .ok (.throw v) m₁ →
        c.BodyThrows fuel v m₁ ∨
          (c.node.IsRegion → c.node.cleanup = some c₁.node) ∧
            c.result (execWithin (fuel + 1)) = .ok (.throw v) m₁
  /-- An exception with no handler and no cleanup around is the flow of the whole. -/
  unhandled : ∀ {fuel around caught c}, n.Executes m fuel around caught c → ∀ {v m'},
    c.result (execWithin fuel) = .ok (.throw v) m' → (∀ x ∈ around, x.LetsThrough v) →
      n.exec m = .ok (.throw v) { m' with handling := m.handling }

theorem surfaces (n : Node) (m : Machine ω) : n.Surfaces m where
  not_thrown v m' h := by
    unfold exec at h
    cases hx : n.execWithin (m.stepLimit - m.steps + 1) none m with
    | ok flow m₁ =>
      rw [hx] at h
      cases h
    | error e m₁ =>
      rw [hx] at h
      cases e with
      | failed e =>
        cases h
        exact n.execWithin_not_thrown _ _ _ _ _ hx
      | outOfFuel => cases h
  raises hc _ _ _ _ he failed := by
    obtain ⟨less, rfl⟩ := hc.fuel_eq
    exact he.raises failed
  aborts hc _ _ _ _ he failed hne := by
    obtain ⟨less, rfl⟩ := hc.fuel_eq
    exact exec_of_error (Visits.error hc ((he.raises failed).trans (raised_of_ne hne)))
  handled _ _ _ hbody := ⟨fun _ found => hbody.handled found, hbody.leaves⟩
  rethrown _ _ _ _ _ hcall hthrow := Call.handler_throws hcall hthrow
  passes _ _ _ _ hcall hthrow := Call.part_throws hcall hthrow
  unhandled hc _ _ hthrow haround := exec_of_ok (Visits.unhandled hc hthrow haround)

end Node

namespace Artifact

variable {a : Artifact} {args : List Value} {m m' : Machine ω}

theorem run_not_thrown (a : Artifact) (args : List Value) (m : Machine ω) (v : Value)
    (m' : Machine ω) : a.run args m ≠ .error (.thrown v) m' := by
  intro h
  rcases run_error h with ⟨_, _, hcause⟩ | ⟨_, hcause⟩ | ⟨-, hbody | ⟨flow, -, hresult⟩⟩
  · cases hcause
  · cases hcause
  · exact execWithin_not_thrown _ _ _ _ _ _ hbody
  · cases flow with
    | normal w => cases hresult
    | throw w => cases hresult
    | jump l w =>
      rw [result] at hresult
      split at hresult <;> cases hresult

/-- What a run executes, the execution of the body does. -/
theorem Visits.executes {fuel : Nat} {around : List Node} {caught : List (Handler Node × Value)}
    {c : Call ω} (h : a.Visits args m fuel around caught c) :
    a.body.Executes (m.prepare a.params args) fuel around caught c := by
  unfold Executes
  rw [(m.restart_stays_prepare a.params args).stepLimit, m.steps_prepare]
  exact h.2

theorem run_of_exec_error (hlen : args.length = a.params.length) {cause : EvalError}
    (h : a.body.exec (m.prepare a.params args) = .error cause m') :
    a.run args m = .error cause m' := by
  rw [run_of_length hlen]
  exact andThen_error.mpr (.inl h)

theorem run_of_exec_throw (hlen : args.length = a.params.length) {v : Value}
    (h : a.body.exec (m.prepare a.params args) = .ok (.throw v) m') :
    a.run args m = .error (.uncaught v) m' := by
  rw [run_of_length hlen, andThen_of_ok h]
  rfl

/-- Every exception surfaces at the node whose evaluation raises it, in the execution of any node and
in the run of any program; no outcome has an exception for its cause. A run whose body ends with an
exception, so with one that nothing around has handled, ends `uncaught`. Any other cause ends the
run with the machine that the evaluation has left, so that no handler and no cleanup is started. -/
theorem exceptions_surface (n : Node) (a : Artifact) (args : List Value) (m : Machine ω) :
    n.Surfaces m ∧ (∀ v m', a.run args m ≠ .error (.thrown v) m') ∧
    (∀ v m', args.length = a.params.length →
      a.body.exec (m.prepare a.params args) = .ok (.throw v) m' →
        a.run args m = .error (.uncaught v) m') ∧
    ∀ {fuel around caught c}, a.Visits args m fuel around caught c →
      (∀ e m₁ v m₂, c.Evaluates e m₁ → e.eval m₁ = .error (.thrown v) m₂ →
        c.result (execWithin fuel) = .ok (.throw v) m₂) ∧
      (∀ v m', c.result (execWithin fuel) = .ok (.throw v) m' → (∀ x ∈ around, x.LetsThrough v) →
        a.run args m = .error (.uncaught v) { m' with handling := [] }) ∧
      ∀ e m₁ cause m₂, c.Evaluates e m₁ → e.eval m₁ = .error cause m₂ →
        (∀ v, cause ≠ .thrown v) → a.run args m = .error cause { m₂ with handling := [] } := by
  have hbody := a.body.surfaces (m.prepare a.params args)
  have hhandling : (m.prepare a.params args).handling = [] :=
    (m.restart_stays_prepare a.params args).handling
  refine ⟨n.surfaces m, a.run_not_thrown args m, fun _ _ hlen => run_of_exec_throw hlen,
    fun hc => ⟨?_, ?_, ?_⟩⟩
  · exact fun _ _ _ _ => hbody.raises hc.executes
  · intro v m' hthrow haround
    have htop := hbody.unhandled hc.executes hthrow haround
    rw [hhandling] at htop
    exact run_of_exec_throw hc.1 htop
  · intro e m₁ cause m₂ he failed hne
    have htop := hbody.aborts hc.executes he failed hne
    rw [hhandling] at htop
    exact run_of_exec_error hc.1 htop

/-- A division by zero in a value of a switch, inside of a region, goes to the handler, and the
placeholder in the handler's body stops the run, past the cleanup. -/
example :
    let zero : Expr := .const (.int 0)
    let fails : Node := .switch zero [⟨[.binary (.arith .div) zero zero], .nop⟩] none
    let body : Node := .attempt fails [⟨.any, none, .eval (.param ⟨"x", .int⟩)⟩]
      (some (.eval (.call "g" [] .void)))
    let host : Host Nat := Host.empty.register "g" fun _ calls => .ok .void (calls + 1)
    let m := final ((Artifact.mk "f" [] (.internal 0) body).run [] (.new host 0 9))
    (m.world, m.steps, m.handling.length) = (0, 3, 0) := rfl

end Artifact

end StructuredFlow
