import StructuredFlow.Proofs.TurnsFollowed

/-
  Traces of executions. What an execution comes to it comes to by calls, one beginning after the
  other; the trace lists them in that order (`Turn.Traces`). A run that ends with a flow has one
  (`Artifact.Traces.of_result`), and it has only one, since the turns are a function.
-/

namespace StructuredFlow

variable {ω : Type}

open Exec Outcome

namespace Turn

/-- The calls that a turn makes until it comes to a report, in the order in which they begin. -/
inductive Traces : Turn ω → List (Call ω) → Report ω → Prop
  | done {r} : Traces (.done r) [] r
  | tail {c calls r} (inner : Traces c.begin calls r) : Traces (.tail c) (c :: calls) r
  | call {c w calls r₁ calls' r} (inner : Traces c.begin calls r₁)
      (later : Traces (w.resume r₁) calls' r) : Traces (.call c w) (c :: (calls ++ calls')) r

variable {t : Turn ω} {calls calls' : List (Call ω)} {r r' : Report ω}

/-- What a turn comes to it comes to along a trace, with a step for each call. -/
theorem ends_iff_traces {k : Nat} : t.Ends k r ↔ ∃ calls, t.Traces calls r ∧ calls.length = k := by
  constructor
  · intro h
    induction h with
    | done => exact ⟨[], .done, rfl⟩
    | tail _ ih =>
      obtain ⟨calls, htraces, rfl⟩ := ih
      exact ⟨_, .tail htraces, rfl⟩
    | call _ _ ihinner ihlater =>
      obtain ⟨calls, hinner, rfl⟩ := ihinner
      obtain ⟨calls', hlater, rfl⟩ := ihlater
      refine ⟨_, .call hinner hlater, ?_⟩
      rw [List.length_cons, List.length_append]
      omega
  · rintro ⟨calls, h, rfl⟩
    induction h with
    | done => exact .done
    | tail _ ih => exact .tail ih
    | @call c w calls r₁ calls' r _ _ ihinner ihlater =>
      have hlength : (c :: (calls ++ calls')).length = calls.length + 1 + calls'.length := by
        rw [List.length_cons, List.length_append]
        omega
      exact hlength ▸ .call ihinner ihlater

theorem Traces.unique (h : t.Traces calls r) (h' : t.Traces calls' r') :
    calls = calls' ∧ r = r' := by
  induction h generalizing calls' r' with
  | done =>
    cases h'
    exact ⟨rfl, rfl⟩
  | tail _ ih =>
    cases h' with
    | tail inner =>
      obtain ⟨rfl, rfl⟩ := ih inner
      exact ⟨rfl, rfl⟩
  | call _ _ ihinner ihlater =>
    cases h' with
    | call inner later =>
      obtain ⟨rfl, rfl⟩ := ihinner inner
      obtain ⟨rfl, rfl⟩ := ihlater later
      exact ⟨rfl, rfl⟩

/-- What goes on after an evaluation comes to a flow if the evaluation gives a value and the rest
comes to it, or with the exception that the evaluation raises. -/
theorem Traces.of_reading {α : Type} {x : EStateM.Result EvalError (Machine ω) α}
    {next : α → Machine ω → Turn ω} {flow : Flow} {m : Machine ω}
    (h : (reading x next).Traces calls (.ok flow m)) :
    (∃ a m₁, x = .ok a m₁ ∧ (next a m₁).Traces calls (.ok flow m)) ∨
      ∃ v, x = .error (.thrown v) m ∧ flow = .throw v ∧ calls = [] := by
  unfold reading at h
  cases x with
  | ok a m₁ => exact .inl ⟨a, m₁, rfl, h⟩
  | error e m₁ =>
    cases e <;> cases h
    exact .inr ⟨_, rfl, rfl, rfl⟩

/-- A limited execution that ends with a flow has a trace. -/
theorem Traces.of_result {c : Call ω} {fuel : Nat} {flow : Flow} {m : Machine ω}
    (h : c.result (Node.execWithin fuel) = .ok flow m) :
    ∃ calls m₁, (Turn.tail c).Traces calls (.ok flow m₁) ∧ m = m₁.metered m.steps m.stepLimit := by
  rcases Node.execWithin_follows fuel c.machine.stepLimit c c.machine.steps with
    ⟨k, r, hends, -, hx⟩ | ⟨⟨e, m', hx, -⟩, -⟩
  · have hlimited : (.ok flow m : EStateM.Result Halt (Machine ω) Flow) =
        limited r (c.machine.steps + k) c.machine.stepLimit := h.symm.trans hx
    obtain ⟨calls, htraces, -⟩ := ends_iff_traces.mp hends
    cases r with
    | ok flow' m₁ =>
      cases hlimited
      exact ⟨calls, m₁, htraces, rfl⟩
    | error e m₁ => cases hlimited
  · have herror : c.result (Node.execWithin fuel) = .error e m' := hx
    rw [h] at herror
    cases herror

end Turn

namespace Artifact

variable {a : Artifact} {args : List Value} {m m' : Machine ω}

/-- The calls that the run of the program makes without a limit, and how its body comes out. -/
def Traces (a : Artifact) (args : List Value) (m : Machine ω) (calls : List (Call ω))
    (report : Report ω) : Prop :=
  args.length = a.params.length ∧ (Turn.tail (a.entry args m)).Traces calls report

/-- The run gives a value, or it ends with an exception that nothing handles; the host has not made
up that it does. -/
def Completes (a : Artifact) (args : List Value) (m m' : Machine ω) : Prop :=
  (∃ v, a.run args m = .ok v m') ∨
    (∃ v, a.run args m = .error (.uncaught v) m') ∧
      ∀ name args world v world', m.host.call name args world ≠ .error (.uncaught v) world'

/-- With a step for each call of the trace, the run gives what the flow says. -/
theorem Traces.run_ok {calls : List (Call ω)} {flow : Flow} {m₁ : Machine ω} {v : Value}
    (h : a.Traces args m calls (.ok flow m₁)) (hlimit : calls.length ≤ m.stepLimit)
    (hresult : a.result flow = .ok v) :
    ∃ m', a.run args m = .ok v m' ∧ m'.metered 0 0 = m₁.metered 0 0 := by
  have hends := Turn.ends_iff_traces.mpr ⟨calls, h.2, rfl⟩
  rcases run_follows (m := m) h.1 m.stepLimit with ⟨k, report, hends', hrun⟩ | ⟨-, hlong⟩
  · obtain ⟨-, rfl⟩ := hends'.unique hends
    rw [conclude, hresult] at hrun
    cases hr : a.run args { m with stepLimit := m.stepLimit } with
    | ok w m' =>
      rw [hr] at hrun
      obtain ⟨rfl, hm'⟩ := EStateM.Result.ok.inj hrun
      exact ⟨m', rfl, hm'⟩
    | error e m' =>
      rw [hr] at hrun
      cases hrun
  · exact absurd (hlong _ _ hends) (Nat.not_lt.mpr hlimit)

end Artifact

namespace Builder

variable {b : Builder} {a : Artifact} {args : List Value} {m m' : Machine ω}

/-- What an execution of the body comes to, if the run completes. -/
theorem Reachable.run_flow (hb : b.Reachable) (ha : b.assemble = .ok a)
    (hrun : a.Completes args m m') :
    args.length = a.params.length ∧ ∃ flow,
      (a.entry args m).result (Node.execWithin (m.stepLimit + 1)) = .ok flow m' ∧
        a.run args m = a.conclude (.ok flow m') := by
  rcases hrun with ⟨v, hrun⟩ | ⟨⟨v, hrun⟩, hhost⟩
  · obtain ⟨hlen, flow, hflow, hresult⟩ := Artifact.run_ok hrun
    refine ⟨hlen, flow, hflow, ?_⟩
    rw [hrun, Artifact.conclude, hresult]
  · rcases Artifact.run_error hrun with ⟨_, _, h⟩ | ⟨_, h⟩ | ⟨hlen, hfailed | ⟨flow, hflow, hresult⟩⟩
    · cases h
    · cases h
    · have hbound := Artifact.bound_entry (m := m) (b.options.allowCaptures = true) hlen
      have hstops := (hb.body_fits ha).failed hbound False.elim hfailed
      have hentry : (a.entry args m).machine.host = m.host :=
        (m.restart_stays_prepare a.params args).host
      rw [hentry] at hstops
      cases hstops with
      | host raised => exact absurd raised (hhost _ _ _ _ _)
    · refine ⟨hlen, flow, hflow, ?_⟩
      rw [hrun, Artifact.conclude, hresult]

/-- A run that completes has a trace. -/
theorem Reachable.run_traces (hb : b.Reachable) (ha : b.assemble = .ok a)
    (hrun : a.Completes args m m') :
    ∃ calls flow m₁, a.Traces args m calls (.ok flow m₁) ∧
      m' = m₁.metered m'.steps m'.stepLimit ∧ a.run args m = a.conclude (.ok flow m') := by
  obtain ⟨hlen, flow, hflow, hconclude⟩ := hb.run_flow ha hrun
  obtain ⟨calls, m₁, htraces, hm'⟩ := Turn.Traces.of_result hflow
  exact ⟨calls, flow, m₁, ⟨hlen, htraces⟩, hm', hconclude⟩

end Builder

end StructuredFlow
