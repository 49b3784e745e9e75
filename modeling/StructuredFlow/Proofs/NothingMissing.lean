import StructuredFlow.Proofs.Runs

/-
  What the nodes of a program ask for is there whenever they are executed. Without captures, every
  variable that a node reads has a value by then, however execution has got to the node
  (`Builder.Reachable.variables_bound`). With or without, the exception that is raised again is the
  one that the innermost handler around has caught, and none is left behind when a node has ended
  (`Builder.Reachable.rethrow_caught`).
-/

namespace StructuredFlow

variable {ω : Type}

open Exec Outcome

namespace Builder

variable {b : Builder} {a : Artifact}

/-- Without captures no run stops for a variable without a value or for a placeholder: wherever a
node of the program is executed, each variable that it reads has a value, also after what the node
has evaluated before. -/
theorem Reachable.variables_bound (hb : b.Reachable) (hcaptures : b.options.allowCaptures = false)
    (ha : b.assemble = .ok a) (args : List Value) (m : Machine ω)
    (hsymbol : ∀ name args world s world',
      m.host.call name args world ≠ .error (.unboundSymbol s) world')
    (hplaceholder : ∀ name args world p world',
      m.host.call name args world ≠ .error (.unboundPlaceholder p) world') :
    (∀ s m', a.run args m ≠ .error (.unboundSymbol s) m') ∧
      (∀ p m', a.run args m ≠ .error (.unboundPlaceholder p) m') ∧
      ∀ fuel around caught c, a.Visits args m fuel around caught c →
        ∀ e ∈ c.node.reads, e.placeholders = [] ∧
          ∀ s ∈ e.vars, ∀ m₁, c.machine.Stays m₁ → m₁.env.contains s.id = true := by
  have hnone : ¬ b.options.allowCaptures = true := by
    rw [hcaptures]
    exact Bool.false_ne_true
  refine ⟨fun s m' hrun => ?_, fun p m' hrun => ?_, fun fuel around caught c hc e he => ?_⟩
  · rcases hb.run_stops ha hrun with ⟨_, _, h⟩ | ⟨_, h⟩ | ⟨_, _, h, -⟩ | h
    · cases h
    · cases h
    · cases h
    · cases h with
      | host raised => exact hsymbol _ _ _ _ _ raised
      | capture s captured => exact hnone captured
  · rcases hb.run_stops ha hrun with ⟨_, _, h⟩ | ⟨_, h⟩ | ⟨_, _, h, -⟩ | h
    · cases h
    · cases h
    · cases h
    · cases h with
      | host raised => exact hplaceholder _ _ _ _ _ raised
  · obtain ⟨Γ, hfits, hbound, -, hcaptured, -⟩ :=
      hc.2.fits (hb.body_fits ha) (Artifact.bound_entry _ hc.1)
    obtain ⟨hplaceholders, hvars⟩ := hfits.checks.reads e he
    refine ⟨hplaceholders, fun s hs m₁ hstays => ?_⟩
    rcases hvars s hs with hc | hs
    · exact absurd (hcaptured hc) hnone
    · exact hstays.env _ (hbound _ hs)

/-- A program that returns its parameter reads it when it has a value. -/
theorem variables_bound_in_return :
    ∃ (b : Builder) (a : Artifact) (c : Call Unit), b.Reachable ∧ b.options.allowCaptures = false ∧
      b.assemble = .ok a ∧ a.Visits [.int 7] (.new .empty () 20) 20 [a.body] [] c ∧
      c.node.reads = [.var ⟨0, "x", .int⟩] ∧ c.machine.env.contains 0 = true := by
  obtain ⟨b, hb⟩ : ∃ b, Builder.create ⟨"f", false⟩ [⟨"x", .int⟩] .int = .ok b := ⟨_, rfl⟩
  have hreturn := (Reachable.create hb).statement 0
    (.returnValue .int ⟨[⟨"x", .int⟩], .param ⟨"x", .int⟩⟩)
  cases hb
  let a : Artifact := ⟨"f", [⟨0, "x", .int⟩], .typed 0 .int, .block []
    [.goto (.typed 0 .int) (some (.var ⟨0, "x", .int⟩)), .label (.typed 0 .int) (some (.int 0))]⟩
  obtain ⟨b, hb, hcaptures, hassemble⟩ : ∃ b : Builder, b.Reachable ∧
      b.options.allowCaptures = false ∧ b.assemble = .ok a := ⟨_, hreturn, rfl, rfl⟩
  have hbound := hb.variables_bound hcaptures hassemble [.int 7] (.new .empty () 20)
    (fun _ _ _ _ _ h => nomatch h) (fun _ _ _ _ _ h => nomatch h)
  obtain ⟨c, hc, hreads⟩ : ∃ c : Call Unit,
      a.Visits [.int 7] (.new .empty () 20) 20 [a.body] [] c ∧
        c.node.reads = [.var ⟨0, "x", .int⟩] :=
    ⟨_, .of_call rfl (.block rfl .head), rfl⟩
  have hvars := (hbound.2.2 20 [a.body] [] c hc (.var ⟨0, "x", .int⟩) (by simp [hreads])).2
  exact ⟨b, a, c, hb, hcaptures, hassemble, hc, hreads,
    hvars ⟨0, "x", .int⟩ (List.mem_singleton_self _) _ (.refl _)⟩

end Builder

/-! ## Exceptions raised again -/

/-- What is raised again is the innermost of the exceptions being handled; only the count of steps
can keep it from being raised. -/
theorem Node.rethrow_result {fuel : Nat} {d : Option Descent} {m : Machine ω} {v : Value}
    {rest : List Value} (h : m.handling = v :: rest) :
    (∃ m', Node.rethrow.execWithin fuel d m = .ok (.throw v) m') ∨
      (∃ limit m', Node.rethrow.execWithin fuel d m = .error (.failed (.stepLimit limit)) m') ∨
      ∃ m', Node.rethrow.execWithin fuel d m = .error .outOfFuel m' := by
  cases fuel with
  | zero => exact .inr (.inr ⟨m, rfl⟩)
  | succ fuel =>
    cases hr : Node.rethrow.execWithin (fuel + 1) d m with
    | ok flow m' =>
      obtain ⟨_, m₁, ticked, hflow⟩ := andThen_ok.mp hr
      have hm₁ : m₁.handling = v :: rest := (tick_keeping.ok ticked).handling.trans h
      dsimp only at hflow
      rw [get_andThen] at hflow
      simp only [hm₁, List.head?_cons] at hflow
      cases hflow
      exact .inl ⟨m', rfl⟩
    | error e m' =>
      rcases andThen_error.mp hr with ht | ⟨_, m₁, ticked, hflow⟩
      · exact .inr (.inl ⟨m.stepLimit, m', by rw [tick_error ht]⟩)
      · have hm₁ : m₁.handling = v :: rest := (tick_keeping.ok ticked).handling.trans h
        dsimp only at hflow
        rw [get_andThen] at hflow
        simp only [hm₁, List.head?_cons] at hflow
        cases hflow

namespace Builder

variable {b : Builder} {a : Artifact}

/-- Wherever a node of the program is executed, the exceptions being handled are those that the
handlers around it have caught. So one that is raised again is what the innermost of these handlers
has caught, and there is one. Every execution leaves the exceptions being handled as they were. -/
theorem Reachable.rethrow_caught (hb : b.Reachable) (ha : b.assemble = .ok a) (args : List Value)
    (m : Machine ω) (hhost : ∀ name args world world',
      m.host.call name args world ≠ .error .noActiveException world') :
    (∀ fuel around caught c, a.Visits args m fuel around caught c →
      a.body.Stands around (caught.map Prod.fst) c.node ∧
        c.machine.handling = caught.map Prod.snd ∧
        (c.node = .rethrow → ∃ h v outer, caught = (h, v) :: outer ∧
          ((∃ m', c.result (Node.execWithin fuel) = .ok (.throw v) m') ∨
            (∃ limit m', c.result (Node.execWithin fuel) = .error (.failed (.stepLimit limit)) m') ∨
            ∃ m', c.result (Node.execWithin fuel) = .error .outOfFuel m'))) ∧
      (∀ m', a.run args m ≠ .error .noActiveException m') ∧
      ∀ (n : Node) fuel d (m₁ : Machine ω),
        (final (n.execWithin fuel d m₁)).handling = m₁.handling := by
  refine ⟨fun fuel around caught c hc => ?_, fun m' hrun => ?_, fun n fuel d m₁ => ?_⟩
  · refine ⟨hc.stands, hc.handling, fun hrethrow => ?_⟩
    obtain ⟨Γ, hfits, -, -, -, hhandling⟩ :=
      hc.2.fits (hb.body_fits ha) (Artifact.bound_entry _ hc.1)
    have hcaught := (hhandling (hfits.checks.rethrow hrethrow)).resolve_left False.elim
    obtain ⟨⟨h, v⟩, outer, rfl⟩ := List.exists_cons_of_ne_nil hcaught
    refine ⟨h, v, outer, rfl, ?_⟩
    rw [Call.result, hrethrow]
    exact Node.rethrow_result hc.handling
  · rcases hb.run_stops ha hrun with ⟨_, _, h⟩ | ⟨_, h⟩ | ⟨_, _, h, -⟩ | h
    · cases h
    · cases h
    · cases h
    · cases h with
      | host raised => exact hhost _ _ _ _ raised
  · exact (Node.execWithin_keeping fuel n d m₁).handling

/-- A handler that raises what it has caught. -/
theorem rethrow_caught_in_handler :
    ∃ (b : Builder) (a : Artifact) (around : List Node) (h : Handler Node) (c : Call Unit),
      b.Reachable ∧ b.assemble = .ok a ∧ c.node = .rethrow ∧
      a.Visits [] (.new .empty () 20) 19 around [(h, .str "e")] c ∧
      a.body.Stands around [h] .rethrow ∧ c.machine.handling = [.str "e"] ∧
      ∃ m', c.result (Node.execWithin 19) = .ok (.throw (.str "e")) m' := by
  obtain ⟨b, hb⟩ : ∃ b, Builder.create ⟨"f", false⟩ [] .void = .ok b := ⟨_, rfl⟩
  have hguarded := (Reachable.create hb).opening 0 .guarded
  have hthrow := hguarded.statement 1 (.throw ⟨[], .const (.str "e")⟩)
  have hhandler := hthrow.step (h := .guarded ⟨0, 0⟩ 1) (s := .handler .any none) rfl
  have hrethrow := hhandler.statement 2 .rethrow
  cases hb
  let a : Artifact := ⟨"f", [], .typed 0 .void, .block []
    [.attempt (.throw (.const (.str "e"))) [⟨.any, none, .rethrow⟩] none,
      .label (.typed 0 .void) none]⟩
  obtain ⟨b, hb, hassemble⟩ : ∃ b : Builder, b.Reachable ∧ b.assemble = .ok a :=
    ⟨_, hrethrow, rfl⟩
  obtain ⟨around, h, c, hc, hnode, m', hresult⟩ : ∃ around h, ∃ c : Call Unit,
      a.Visits [] (.new .empty () 20) 19 around [(h, .str "e")] c ∧ c.node = .rethrow ∧
        ∃ m', c.result (Node.execWithin 19) = .ok (.throw (.str "e")) m' := by
    have hlen : ([] : List Value).length = a.params.length := rfl
    have hattempt := Artifact.Visits.of_call (m := .new .empty () 20) hlen (.block rfl .head)
    exact ⟨_, ⟨.any, none, .rethrow⟩, _,
      hattempt.call (.attempt rfl (.handler rfl rfl rfl)), rfl, _, rfl⟩
  have hcaught := (hb.rethrow_caught hassemble [] (.new .empty () 20)
    (fun _ _ _ _ h => nomatch h)).1 19 around _ c hc
  exact ⟨b, a, around, h, c, hb, hassemble, hnode, hc, hnode ▸ hcaught.1, hcaught.2.1, m', hresult⟩

end Builder

end StructuredFlow
