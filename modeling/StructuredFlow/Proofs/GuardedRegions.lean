import StructuredFlow.Proofs.Executions

/-
  The law of guarded regions. A region executes its body, and then the handler that the body's
  exception goes to (`Pass`); a jump into the body makes it do so again (`Passes`). The flow that
  comes out is pending while the cleanup is executed once, from its start, or from the place that a
  jump leads to in it (`Leaves`). An execution of a region is just this (`Node.attempt_runs_iff`,
  `Node.attempt_law`): the handlers answer to the body alone, and the cleanup comes after the last
  pass.

  Labels need not be unique: what counts for a jump is the body first, then the cleanup.
-/

namespace StructuredFlow

variable {ω : Type}

open Exec

variable (body : Node) (handlers : List (Handler Node)) (cleanup : Option Node)

/-- One execution of the body, together with that of the first handler that accepts the exception
which the body raises, if there is one. -/
inductive Pass (d : Option Descent) (m : Machine ω) : List (Call ω) → Flow → Machine ω → Prop
  | unhandled {calls flow m₁} (run : body.Runs d m calls flow m₁)
      (refused : ∀ v, flow = .throw v → ∀ h ∈ handlers, v.isInstanceOf h.kind = false) :
      Pass d m calls flow m₁
  | handled {calls v m₁ before h after calls' flow m₂}
      (run : body.Runs d m calls (.throw v) m₁) (order : handlers = before ++ h :: after)
      (accepts : v.isInstanceOf h.kind = true)
      (first : ∀ h' ∈ before, v.isInstanceOf h'.kind = false)
      (response : h.body.Runs none (h.enter v m₁) calls' flow m₂) :
      Pass d m (calls ++ calls') flow m₂.endHandling

/-- Passes until one ends otherwise than with a jump into the body; such a jump starts the next
one. -/
inductive Passes : Option Descent → Machine ω → List (Call ω) → Flow → Machine ω → Prop
  | last {d m calls flow m₁} (pass : Pass body handlers d m calls flow m₁)
      (leaves : ∀ l v, flow = .jump l v → body.defines l = false) : Passes d m calls flow m₁
  | again {d m calls l v m₁ calls' flow m₂} (pass : Pass body handlers d m calls (.jump l v) m₁)
      (inside : body.defines l = true) (later : Passes (some ⟨l, v⟩) m₁ calls' flow m₂) :
      Passes d m (calls ++ calls') flow m₂

/-- How the region is left while a flow is pending: without a cleanup, with the cleanup executed
from a place in it, or with the cleanup executed from its start, after which the pending flow goes
on unless the cleanup has a flow of its own. -/
inductive Leaves : Flow → Machine ω → List (Call ω) → Flow → Machine ω → Prop
  | plain {pending m} (absent : cleanup = none)
      (outside : ∀ l v, pending = .jump l v → regionDefines l body handlers cleanup = false) :
      Leaves pending m [] pending m
  | entered {l v m n calls flow m'} (present : cleanup = some n) (inside : n.defines l = true)
      (run : n.Runs (some ⟨l, v⟩) m calls flow m') : Leaves (.jump l v) m calls flow m'
  | cleaned {pending m n calls v m'} (present : cleanup = some n)
      (outside : ∀ l v, pending = .jump l v → regionDefines l body handlers cleanup = false)
      (run : n.Runs none m calls (.normal v) m') : Leaves pending m calls pending m'
  | replaced {pending m n calls flow m'} (present : cleanup = some n)
      (outside : ∀ l v, pending = .jump l v → regionDefines l body handlers cleanup = false)
      (run : n.Runs none m calls flow m') (own : ∀ v, flow ≠ .normal v) :
      Leaves pending m calls flow m'

variable {body handlers cleanup}
variable {d : Option Descent} {m m' : Machine ω} {calls : List (Call ω)} {flow pending : Flow}

/-- The exception that a handler is entered with is bound to its variable. -/
theorem Handler.get?_enter (h : Handler Node) (v : Value) (m : Machine ω) :
    ∀ s ∈ h.binding, (h.enter v m).env.get? s.id = some v := by
  intro s hs
  unfold enter
  rw [Option.mem_def.mp hs]
  show (m.env.insert s.id v).get? s.id = some v
  rw [Env.get?_insert, if_pos rfl]

/-- The first call of an execution is that of the node itself. -/
theorem Node.Runs.length_pos {n : Node} (h : n.Runs d m calls flow m') :
    0 < calls.length := by
  cases h with
  | tail => exact Nat.succ_pos _

theorem Pass.length_pos (h : Pass body handlers d m calls flow m') : 0 < calls.length := by
  cases h with
  | unhandled run => exact run.length_pos
  | handled run =>
    rw [List.length_append]
    exact Nat.add_pos_left run.length_pos _

/-- Without handlers, a pass is an execution of the body. -/
theorem Pass.runs (h : Pass body [] d m calls flow m') : body.Runs d m calls flow m' := by
  cases h with
  | unhandled run => exact run
  | handled _ order =>
    exact absurd order.symm (List.append_ne_nil_of_right_ne_nil _ (List.cons_ne_nil _ _))

/-! ## Parts of a region -/

namespace Turn

/-- A turn that calls a node comes to a flow if the node does, and then what waits for it. -/
theorem traces_call_iff {n : Node} {w : Waiting} {t : Machine ω} :
    (Turn.call ⟨n, d, t⟩ w).Traces calls (.ok flow m') ↔ ∃ calls₁ flow₁ m₁ calls₂,
      calls = calls₁ ++ calls₂ ∧ n.Runs d t calls₁ flow₁ m₁ ∧
        (w.resume (.ok flow₁ m₁)).Traces calls₂ (.ok flow m') := by
  constructor
  · intro h
    cases h with
    | @call c w calls₁ r₁ calls₂ r inner later =>
      cases r₁ with
      | error e m₁ =>
        obtain ⟨m₂, hresume⟩ := w.resume_error e m₁
        rw [hresume] at later
        cases later
      | ok flow₁ m₁ => exact ⟨_ :: calls₁, flow₁, m₁, calls₂, rfl, .tail inner, later⟩
  · rintro ⟨calls₁, flow₁, m₁, calls₂, rfl, inner, later⟩
    cases inner with
    | tail inner => exact .call inner later

/-- While a flow is pending that is no jump inside of the region, the cleanup is executed from its
start. -/
theorem clean_traces_iff
    (outside : ∀ l v, pending = .jump l v → regionDefines l body handlers cleanup = false) :
    (Turn.clean cleanup pending m).Traces calls (.ok flow m') ↔
      Leaves body handlers cleanup pending m calls flow m' := by
  cases cleanup with
  | none =>
    constructor
    · intro h
      cases h
      exact .plain rfl outside
    · intro h
      cases h with
      | plain => exact .done
      | entered present => cases present
      | cleaned present => cases present
      | replaced present => cases present
  | some n =>
    have hcall : (Turn.clean (some n) pending m).Traces calls (.ok flow m') ↔
        ∃ calls₁ flow₁ m₁ calls₂, calls = calls₁ ++ calls₂ ∧ n.Runs none m calls₁ flow₁ m₁ ∧
          (Waiting.resume (.cleaning pending) (.ok flow₁ m₁)).Traces calls₂ (.ok flow m') :=
      traces_call_iff
    rw [hcall]
    constructor
    · rintro ⟨calls₁, flow₁, m₁, calls₂, rfl, run, later⟩
      cases flow₁ with
      | normal v =>
        cases later
        rw [List.append_nil]
        exact .cleaned rfl outside run
      | jump l v =>
        cases later
        rw [List.append_nil]
        exact .replaced rfl outside run nofun
      | throw v =>
        cases later
        rw [List.append_nil]
        exact .replaced rfl outside run nofun
    · intro h
      cases h with
      | plain absent => cases absent
      | entered present inside =>
        cases present
        have hout := outside _ _ rfl
        rw [regionDefines, Option.any_some, inside, Bool.or_true, Bool.true_or] at hout
        cases hout
      | cleaned present _ run =>
        cases present
        exact ⟨_, _, _, [], (List.append_nil _).symm, run, .done⟩
      | replaced present _ run own =>
        cases present
        refine ⟨_, _, _, [], (List.append_nil _).symm, run, ?_⟩
        cases flow with
        | normal v => exact absurd rfl (own v)
        | jump l v => exact .done
        | throw v => exact .done

/-- What the last execution of the body and its handler ends with: a jump into the body enters the
region again, and any other flow leaves it. -/
theorem leaveRegion_traces_iff {l : LabelId} {v : Option Value} (hl : pending = .jump l v)
    (inside : body.defines l = true) :
    (Turn.leaveRegion body handlers cleanup pending m).Traces calls (.ok flow m') ↔
      (Turn.region body handlers cleanup (some ⟨l, v⟩) m).Traces calls (.ok flow m') := by
  subst hl
  have hinside : regionDefines l body handlers cleanup = true := by
    rw [regionDefines, inside, Bool.true_or, Bool.true_or]
  unfold leaveRegion
  dsimp only
  rw [if_pos hinside]

theorem leaveRegion_leaves_iff (leaves : ∀ l v, pending = .jump l v → body.defines l = false) :
    (Turn.leaveRegion body handlers cleanup pending m).Traces calls (.ok flow m') ↔
      Leaves body handlers cleanup pending m calls flow m' := by
  cases pending with
  | normal v => exact clean_traces_iff nofun
  | throw v => exact clean_traces_iff nofun
  | jump l v =>
    have hbody := leaves l v rfl
    unfold leaveRegion
    dsimp only
    split
    next hinside =>
      unfold region entrance
      dsimp only
      rw [if_neg (Bool.eq_false_iff.mp hbody)]
      cases hcleanup : cleanup.filter (·.defines l) with
      | some n =>
        obtain ⟨hsome, hdefines⟩ := Option.filter_eq_some_iff.mp hcleanup
        constructor
        · exact fun h => .entered hsome hdefines h
        · intro h
          cases h with
          | entered present _ run =>
            cases hsome.symm.trans present
            exact run
          | plain _ outside => cases hinside.symm.trans (outside l v rfl)
          | cleaned _ outside => cases hinside.symm.trans (outside l v rfl)
          | replaced _ outside => cases hinside.symm.trans (outside l v rfl)
      | none =>
        constructor
        · intro h
          cases h
        · intro h
          cases h with
          | entered present inside =>
            rw [present, Option.filter_some, inside] at hcleanup
            cases hcleanup
          | plain _ outside => cases hinside.symm.trans (outside l v rfl)
          | cleaned _ outside => cases hinside.symm.trans (outside l v rfl)
          | replaced _ outside => cases hinside.symm.trans (outside l v rfl)
    next houtside =>
      refine clean_traces_iff fun l' v' hl => ?_
      cases hl
      exact Bool.eq_false_iff.mpr houtside

/-- After the body, its exception goes to a handler, or the flow of the body leaves. -/
theorem guarded_traces_iff :
    (Turn.call ⟨body, d, m⟩ (.guarded body handlers cleanup)).Traces calls (.ok flow m') ↔
      ∃ calls₁ flow₁ m₁ calls₂, calls = calls₁ ++ calls₂ ∧ Pass body handlers d m calls₁ flow₁ m₁ ∧
        (Turn.leaveRegion body handlers cleanup flow₁ m₁).Traces calls₂ (.ok flow m') := by
  rw [traces_call_iff]
  constructor
  · rintro ⟨calls₁, flow₁, m₁, calls₂, rfl, run, later⟩
    cases flow₁ with
    | normal v => exact ⟨calls₁, _, m₁, calls₂, rfl, .unhandled run nofun, later⟩
    | jump l v => exact ⟨calls₁, _, m₁, calls₂, rfl, .unhandled run nofun, later⟩
    | throw v =>
      dsimp only [Waiting.resume] at later
      cases hfound : handlers.find? (v.isInstanceOf ·.kind) with
      | none =>
        rw [hfound] at later
        have hnone := List.find?_eq_none.mp hfound
        refine ⟨calls₁, _, m₁, calls₂, rfl, .unhandled run fun w hw h hh => ?_, later⟩
        cases hw
        exact Bool.eq_false_iff.mpr (hnone h hh)
      | some h =>
        rw [hfound] at later
        obtain ⟨accepts, before, after, order, hfirst⟩ := List.find?_eq_some_iff_append.mp hfound
        obtain ⟨calls₂, flow₂, m₂, calls₃, rfl, response, later⟩ := traces_call_iff.mp later
        refine ⟨calls₁ ++ calls₂, flow₂, m₂.endHandling, calls₃, (List.append_assoc ..).symm,
          .handled run order accepts (fun h' hh' => ?_) response, later⟩
        exact (Bool.not_eq_true' _).mp (hfirst h' hh')
  · rintro ⟨calls₁, flow₁, m₁, calls₂, rfl, pass, later⟩
    cases pass with
    | unhandled run refused =>
      refine ⟨calls₁, flow₁, m₁, calls₂, rfl, run, ?_⟩
      cases flow₁ with
      | normal v => exact later
      | jump l v => exact later
      | throw v =>
        dsimp only [Waiting.resume]
        rw [List.find?_eq_none.mpr fun h hh => Bool.eq_false_iff.mp (refused v rfl h hh)]
        exact later
    | @handled calls₁ v m₁ before h after calls' flow m₂ run order accepts first response =>
      refine ⟨calls₁, .throw v, m₁, calls' ++ calls₂, List.append_assoc .., run, ?_⟩
      have hfound : handlers.find? (v.isInstanceOf ·.kind) = some h :=
        List.find?_eq_some_iff_append.mpr ⟨accepts, before, after, order, fun h' hh' =>
          (Bool.not_eq_true' _).mpr (first h' hh')⟩
      dsimp only [Waiting.resume]
      rw [hfound]
      exact traces_call_iff.mpr ⟨calls', flow₁, m₂, calls₂, rfl, response, later⟩

/-- A region that is entered at its body makes passes, and then it is left. -/
theorem region_traces_iff (start : entrance body cleanup d = .body) :
    (Turn.region body handlers cleanup d m).Traces calls (.ok flow m') ↔
      ∃ calls₁ pending m₁ calls₂, calls = calls₁ ++ calls₂ ∧
        Passes body handlers d m calls₁ pending m₁ ∧
          Leaves body handlers cleanup pending m₁ calls₂ flow m' := by
  have hentered : ∀ {l : LabelId} (v : Option Value), body.defines l = true →
      entrance body cleanup (some ⟨l, v⟩) = .body := fun v hl => if_pos hl
  have hregion : ∀ {d} {m : Machine ω}, entrance body cleanup d = .body →
      Turn.region body handlers cleanup d m =
        .call ⟨body, d, m⟩ (.guarded body handlers cleanup) := by
    intro d m start
    unfold region
    rw [start]
  constructor
  · intro h
    induction hsize : calls.length using Nat.strong_induction_on generalizing calls d m with
    | _ size ih =>
      subst hsize
      rw [hregion start] at h
      obtain ⟨calls₁, flow₁, m₁, calls₂, rfl, pass, later⟩ := guarded_traces_iff.mp h
      by_cases hjump : ∃ l v, flow₁ = .jump l v ∧ body.defines l = true
      · obtain ⟨l, v, rfl, inside⟩ := hjump
        rw [leaveRegion_traces_iff rfl inside] at later
        have hshorter : calls₂.length < (calls₁ ++ calls₂).length := by
          have := pass.length_pos
          rw [List.length_append]
          omega
        obtain ⟨calls₃, pending, m₂, calls₄, rfl, passes, leaves⟩ :=
          ih _ hshorter (hentered v inside) later rfl
        exact ⟨calls₁ ++ calls₃, pending, m₂, calls₄, (List.append_assoc ..).symm,
          .again pass inside passes, leaves⟩
      · have hleaves : ∀ l v, flow₁ = .jump l v → body.defines l = false := fun l v hl =>
          Bool.eq_false_iff.mpr fun inside => hjump ⟨l, v, hl, inside⟩
        exact ⟨calls₁, flow₁, m₁, calls₂, rfl, .last pass hleaves,
          (leaveRegion_leaves_iff hleaves).mp later⟩
  · rintro ⟨calls₁, pending, m₁, calls₂, rfl, passes, leaves⟩
    induction passes with
    | last pass hleaves =>
      rw [hregion start]
      exact guarded_traces_iff.mpr
        ⟨_, _, _, _, rfl, pass, (leaveRegion_leaves_iff hleaves).mpr leaves⟩
    | again pass inside _ ih =>
      rw [hregion start]
      refine guarded_traces_iff.mpr ⟨_, _, _, _, List.append_assoc .., pass, ?_⟩
      exact (leaveRegion_traces_iff rfl inside).mpr (ih (hentered _ inside) leaves)

end Turn

/-! ## The region as a node -/

namespace Node

/-- A region is entered in its body, unless the place that is sought is in the cleanup. Then it
makes passes, and it is left after the last one. -/
theorem attempt_runs_iff
    (hd : ∀ s ∈ d, ∀ n ∈ cleanup, n.defines s.target = false) :
    (attempt body handlers cleanup).Runs d m calls flow m' ↔
      (∀ s ∈ d, body.defines s.target = true) ∧ ∃ calls₁ pending m₁ calls₂,
        calls = ⟨attempt body handlers cleanup, d, m⟩ :: (calls₁ ++ calls₂) ∧
          Passes body handlers d m calls₁ pending m₁ ∧
            Leaves body handlers cleanup pending m₁ calls₂ flow m' := by
  have htail : (attempt body handlers cleanup).Runs d m calls flow m' ↔ ∃ later,
      calls = ⟨attempt body handlers cleanup, d, m⟩ :: later ∧
        (Turn.region body handlers cleanup d m).Traces later (.ok flow m') := by
    constructor
    · intro h
      cases h with
      | tail inner => exact ⟨_, rfl, inner⟩
    · rintro ⟨later, rfl, h⟩
      exact .tail h
  rw [htail]
  by_cases hin : ∀ s ∈ d, body.defines s.target = true
  · have start : entrance body cleanup d = .body := by
      cases d with
      | none => rfl
      | some s => exact if_pos (hin s rfl)
    simp only [Turn.region_traces_iff start]
    constructor
    · rintro ⟨_, rfl, calls₁, pending, m₁, calls₂, rfl, passes, leaves⟩
      exact ⟨hin, calls₁, pending, m₁, calls₂, rfl, passes, leaves⟩
    · rintro ⟨-, calls₁, pending, m₁, calls₂, rfl, passes, leaves⟩
      exact ⟨_, rfl, calls₁, pending, m₁, calls₂, rfl, passes, leaves⟩
  · refine iff_of_false ?_ fun h => hin h.1
    rintro ⟨later, -, h⟩
    cases d with
    | none => exact hin nofun
    | some s =>
      have hbody : ¬body.defines s.target = true := fun hs => hin fun s' hs' => by
        cases hs'
        exact hs
      have hcleanup : cleanup.filter (·.defines s.target) = none :=
        Option.filter_eq_none_iff.mpr fun n hn => Bool.eq_false_iff.mp (hd s rfl n hn)
      have start : entrance body cleanup (some s) = .handler s.target := by
        rw [entrance, if_neg hbody, hcleanup]
      rw [Turn.region, start] at h
      cases h

/-- The law of guarded regions, for an execution that ends with a flow and does not start in the
cleanup: passes of the body and of the handler that answers to it, each of them after a jump into
the body, and after the last one the cleanup, once. -/
theorem attempt_law {fuel : Nat}
    (h : (attempt body handlers cleanup).execWithin fuel d m = .ok flow m')
    (hd : ∀ s ∈ d, ∀ n ∈ cleanup, n.defines s.target = false) :
    (∀ s ∈ d, body.defines s.target = true) ∧ ∃ calls pending m₁ calls',
      (attempt body handlers cleanup).Runs d m
          (⟨attempt body handlers cleanup, d, m⟩ :: (calls ++ calls')) flow
          (m'.metered m.steps m.stepLimit) ∧
        Passes body handlers d m calls pending m₁ ∧
          Leaves body handlers cleanup pending m₁ calls' flow
            (m'.metered m.steps m.stepLimit) := by
  obtain ⟨calls, hruns⟩ := runs_of_ok h
  obtain ⟨hin, calls₁, pending, m₁, calls₂, rfl, passes, leaves⟩ :=
    (attempt_runs_iff hd).mp hruns
  exact ⟨hin, calls₁, pending, m₁, calls₂, hruns, passes, leaves⟩

/-- The second of two handlers takes the exception and jumps back into the body with it, where the
label has it as its value; the cleanup comes after that. -/
theorem attempt_law_in_retry :
    let body := block [] [throw (.const (.str "lost")), label (.named 1 "again") none]
    let handlers : List (Handler Node) :=
      [⟨.object "E", none, nop⟩, ⟨.str, some ⟨2, none, .str⟩,
        goto (.named 1 "again") (some (.var ⟨2, none, .str⟩))⟩]
    let m : Machine Unit := .new Host.empty () 7
    let m' : Machine Unit := { m with env := ⟨[(2, .str "lost")]⟩ }
    (∀ s ∈ (none : Option Descent), body.defines s.target = true) ∧ ∃ calls pending m₁ calls',
      (attempt body handlers (some nop)).Runs none m
          (⟨attempt body handlers (some nop), none, m⟩ :: (calls ++ calls'))
          (.normal (.str "lost")) m' ∧
        Passes body handlers none m calls pending m₁ ∧
          Leaves body handlers (some nop) pending m₁ calls' (.normal (.str "lost")) m' := by
  intro body handlers m m'
  obtain ⟨calls, hrun, hlength⟩ : ∃ calls, (attempt body handlers (some nop)).Runs none m calls
      (.normal (.str "lost")) m' ∧ calls.length = 7 :=
    ⟨_, .tail (.call (.call .done .done) (.call .done (.call (.call .done .done)
      (.call .done .done)))), rfl⟩
  have h := hrun.execWithin_ok
  rw [hlength] at h
  exact attempt_law h nofun

end Node

end StructuredFlow
