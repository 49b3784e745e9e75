import StructuredFlow.Machine.Run
import StructuredFlow.Proofs.AssemblyFits
import StructuredFlow.Proofs.Reachable

/-
  Runs of programs. Before a run the parameters are set and no exception is being handled; then the
  body is executed once, from its start. A run visits what that execution visits
  (`Artifact.Visits`). For a program assembled from a builder, what surrounds the body holds of the
  machine that the run starts from, so every visit finds what its node asks for
  (`Builder.Reachable.body_fits`).
-/

namespace StructuredFlow

variable {ω : Type}

open Outcome

namespace Machine

variable {m : Machine ω} {params : List Symbol} {args : List Value}

theorem stays_foldl_assign (entries : List (Symbol × Value)) (m : Machine ω) :
    m.Stays (entries.foldl (fun m p => m.assign p.1 p.2) m) := by
  induction entries generalizing m with
  | nil => exact .refl m
  | cons p entries ih => exact (Stays.assign m p.1 p.2).trans (ih _)

theorem steps_foldl_assign (entries : List (Symbol × Value)) (m : Machine ω) :
    (entries.foldl (fun m p => m.assign p.1 p.2) m).steps = m.steps := by
  induction entries generalizing m with
  | nil => rfl
  | cons p entries ih => exact ih _

theorem contains_foldl_assign {entries : List (Symbol × Value)} {p : Symbol × Value}
    (hp : p ∈ entries) (m : Machine ω) :
    (entries.foldl (fun m p => m.assign p.1 p.2) m).env.contains p.1.id = true := by
  induction entries generalizing m with
  | nil => exact absurd hp List.not_mem_nil
  | cons q entries ih =>
    rcases List.mem_cons.mp hp with rfl | hp
    · exact (stays_foldl_assign entries _).env _ (Env.contains_insert.mpr (.inl rfl))
    · exact ih hp _

theorem restart_stays_prepare (m : Machine ω) (params : List Symbol) (args : List Value) :
    m.restart.Stays (m.prepare params args) :=
  stays_foldl_assign _ _

theorem steps_prepare (m : Machine ω) (params : List Symbol) (args : List Value) :
    (m.prepare params args).steps = 0 :=
  steps_foldl_assign _ _

/-- With an argument for each, every parameter has a value. -/
theorem contains_prepare (h : args.length = params.length) {x : Symbol} (hx : x ∈ params) :
    (m.prepare params args).env.contains x.id = true := by
  have hzip : (params.zip args).map Prod.fst = params :=
    List.map_fst_zip (Nat.le_of_eq h.symm)
  rw [← hzip] at hx
  obtain ⟨p, hp, rfl⟩ := List.mem_map.mp hx
  exact contains_foldl_assign hp _

end Machine

namespace Artifact

open Node (execWithin)

variable {a : Artifact} {args : List Value} {m m' : Machine ω}

/-- The execution of the body that a run consists of. -/
def entry (a : Artifact) (args : List Value) (m : Machine ω) : Call ω :=
  ⟨a.body, none, m.prepare a.params args⟩

/-- The run of the program executes the call, with some fuel left; `around` are the nodes around,
and `caught` are the handlers around with what they have caught. -/
def Visits (a : Artifact) (args : List Value) (m : Machine ω) (fuel : Nat) (around : List Node)
    (caught : List (Handler Node × Value)) (c : Call ω) : Prop :=
  args.length = a.params.length ∧
    Node.Visits (m.stepLimit + 1) (a.entry args m) fuel around caught c

theorem exec_entry : a.body.exec (m.prepare a.params args) =
    match (a.entry args m).result (execWithin (m.stepLimit + 1)) with
    | .ok flow m => .ok flow m
    | .error (.failed e) m => .error e m
    | .error .outOfFuel m => .error (.stepLimit m.stepLimit) m := by
  rw [Node.exec, (m.restart_stays_prepare a.params args).stepLimit, Machine.steps_prepare,
    Nat.sub_zero]
  rfl

theorem exec_entry_ok {flow : Flow} (h : a.body.exec (m.prepare a.params args) = .ok flow m') :
    (a.entry args m).result (execWithin (m.stepLimit + 1)) = .ok flow m' := by
  rw [exec_entry] at h
  cases hr : (a.entry args m).result (execWithin (m.stepLimit + 1)) with
  | ok flow' m₁ =>
    rw [hr] at h
    cases h
    rfl
  | error e m₁ =>
    rw [hr] at h
    cases e <;> cases h

theorem exec_entry_error {cause : EvalError}
    (h : a.body.exec (m.prepare a.params args) = .error cause m') :
    (a.entry args m).result (execWithin (m.stepLimit + 1)) = .error (.failed cause) m' ∨
      ∃ limit, cause = .stepLimit limit := by
  rw [exec_entry] at h
  cases hr : (a.entry args m).result (execWithin (m.stepLimit + 1)) with
  | ok flow m₁ =>
    rw [hr] at h
    cases h
  | error e m₁ =>
    rw [hr] at h
    cases e with
    | failed e =>
      cases h
      exact .inl rfl
    | outOfFuel =>
      cases h
      exact .inr ⟨_, rfl⟩

/-- With an argument for each parameter, the body is run and its flow gives the result. -/
theorem run_of_length (h : args.length = a.params.length) :
    a.run args m = (a.body.exec >>= fun flow => MonadExcept.ofExcept (a.result flow))
      (m.prepare a.params args) := by
  unfold run
  rw [if_neg (not_not.mpr h)]
  rfl

theorem run_of_length_ne (h : args.length ≠ a.params.length) :
    a.run args m = .error (.arityMismatch a.params.length args.length) m := by
  unfold run
  rw [if_pos h]
  rfl

/-- A run gives what the flow of the body says. -/
theorem run_ok {v : Value} (h : a.run args m = .ok v m') :
    args.length = a.params.length ∧ ∃ flow,
      (a.entry args m).result (execWithin (m.stepLimit + 1)) = .ok flow m' ∧
        a.result flow = .ok v := by
  by_cases hlen : args.length = a.params.length
  · rw [run_of_length hlen] at h
    obtain ⟨flow, m₁, hexec, h⟩ := andThen_ok.mp h
    obtain ⟨hresult, rfl⟩ := ofExcept_ok.mp h
    exact ⟨hlen, flow, exec_entry_ok hexec, hresult⟩
  · rw [run_of_length_ne hlen] at h
    cases h

/-- A run stops because of its arguments or the step limit, for what stops the body, or for the flow
that the body ends with. -/
theorem run_error {cause : EvalError} (h : a.run args m = .error cause m') :
    (∃ expected given, cause = .arityMismatch expected given) ∨
      (∃ limit, cause = .stepLimit limit) ∨
      args.length = a.params.length ∧
        ((a.entry args m).result (execWithin (m.stepLimit + 1)) = .error (.failed cause) m' ∨
          ∃ flow, (a.entry args m).result (execWithin (m.stepLimit + 1)) = .ok flow m' ∧
            a.result flow = .error cause) := by
  by_cases hlen : args.length = a.params.length
  · rw [run_of_length hlen] at h
    rcases andThen_error.mp h with hexec | ⟨flow, m₁, hexec, h⟩
    · rcases exec_entry_error hexec with hexec | hlimit
      · exact .inr (.inr ⟨hlen, .inl hexec⟩)
      · exact .inr (.inl hlimit)
    · obtain ⟨hresult, rfl⟩ := ofExcept_error.mp h
      exact .inr (.inr ⟨hlen, .inr ⟨flow, exec_entry_ok hexec, hresult⟩⟩)
  · rw [run_of_length_ne hlen] at h
    cases h
    exact .inl ⟨_, _, rfl⟩

/-! ## Programs of builders -/

/-- The surroundings of the body hold of the machine that a run starts from. -/
theorem bound_entry (captures : Prop) (h : args.length = a.params.length) :
    (a.surroundings captures).Bound (a.entry args m).machine := by
  rintro id ⟨x, hx, rfl⟩
  exact Machine.contains_prepare h hx

namespace Visits

variable {fuel : Nat} {around : List Node} {caught : List (Handler Node × Value)} {c : Call ω}

/-- What the body calls is executed by the run. -/
theorem of_call (hlen : args.length = a.params.length)
    (h : Node.Calls (m.stepLimit + 1) a.body none (m.prepare a.params args) none c) :
    a.Visits args m m.stepLimit [a.body] [] c :=
  ⟨hlen, .inside (c := a.entry args m) h .here⟩

theorem call (h : a.Visits args m (fuel + 1) around caught c) {c₁ : Call ω}
    {entered : Option (Handler Node × Value)}
    (hcall : Node.Calls (fuel + 1) c.node c.descent c.machine entered c₁) :
    a.Visits args m fuel (c.node :: around) (entered.toList ++ caught) c₁ :=
  ⟨h.1, h.2.call hcall⟩

/-- At every time, what is handled is what the handlers around have caught. -/
theorem handling (h : a.Visits args m fuel around caught c) :
    c.machine.handling = caught.map Prod.snd := by
  have hnone : (a.entry args m).machine.handling = [] :=
    (m.restart_stays_prepare a.params args).handling
  rw [h.2.arrives.handling, hnone, List.append_nil]

theorem stands (h : a.Visits args m fuel around caught c) :
    a.body.Stands around (caught.map Prod.fst) c.node :=
  h.2.stands

end Visits

end Artifact

namespace Builder

variable {b : Builder} {a : Artifact} {args : List Value} {m m' : Machine ω}

theorem Reachable.body_fits (hb : b.Reachable) (ha : b.assemble = .ok a) :
    a.body.Fits (a.surroundings (b.options.allowCaptures = true)) :=
  hb.built.sound.fits_of_assemble ha

/-- A run of an assembled program stops for one of the causes that can stop a program which fits, or
because of its arguments, an exception that nothing handles, or a jump that nothing takes. -/
theorem Reachable.run_stops (hb : b.Reachable) (ha : b.assemble = .ok a) {cause : EvalError}
    (h : a.run args m = .error cause m') :
    (∃ expected given, cause = .arityMismatch expected given) ∨ (∃ v, cause = .uncaught v) ∨
      (∃ l v, cause = .escapedJump l ∧
        (a.entry args m).result (Node.execWithin (m.stepLimit + 1)) = .ok (.jump l v) m') ∨
      Stops (b.options.allowCaptures = true) m.host cause := by
  rcases Artifact.run_error h with hargs | ⟨limit, rfl⟩ | ⟨hlen, hfailed | ⟨flow, hflow, hresult⟩⟩
  · exact .inl hargs
  · exact .inr (.inr (.inr (.stepLimit limit)))
  · have hbound := Artifact.bound_entry (m := m) (b.options.allowCaptures = true) hlen
    have hstops := (hb.body_fits ha).failed hbound False.elim hfailed
    have hhost : (a.entry args m).machine.host = m.host :=
      (m.restart_stays_prepare a.params args).host
    rw [hhost] at hstops
    exact .inr (.inr (.inr hstops))
  · cases flow with
    | normal v => cases hresult
    | throw v =>
      cases hresult
      exact .inr (.inl ⟨v, rfl⟩)
    | jump l v =>
      rw [Artifact.result] at hresult
      split at hresult
      · cases hresult
      · cases hresult
        exact .inr (.inr (.inl ⟨l, v, rfl, hflow⟩))

end Builder

end StructuredFlow
