import StructuredFlow.Proofs.CollapseTransparent
import StructuredFlow.Proofs.Executions

/-
  What nodes give with enough fuel and steps. An execution has an outcome if every one with more
  fuel and a higher limit has it too, apart from the meter (`Exec.Gives`). For a node from its
  start or from a place in it (`Node.Yields`), and for statements in a row (`Node.RowYields`), this
  is what the turns come to (`Node.yields_iff_comes`, `Node.rowYields_iff_comes`): the turns do not
  touch the meter (`Turn.Ends.metered`), and the limited execution follows them.
-/

namespace StructuredFlow

variable {ω : Type}

open Exec Outcome

/-! ## The meter of turns -/

namespace Turn

variable {steps limit : Nat}

theorem machine_reading {α : Type} {x : Eval ω α} {next : α → Machine ω → Turn ω} {m : Machine ω}
    (hx : Blind x) (hm : m.Metered steps limit)
    (hnext : ∀ a m, Machine.Metered steps limit m → (next a m).machine.Metered steps limit) :
    (reading (x m) next).machine.Metered steps limit := by
  have hblind := hx m steps limit
  rw [hm] at hblind
  unfold reading
  cases h : x m with
  | ok a m₁ =>
    rw [h] at hblind
    exact hnext a m₁ (EStateM.Result.ok.inj hblind).2.symm
  | error e m₁ =>
    rw [h] at hblind
    have hm₁ : m₁.Metered steps limit := (EStateM.Result.error.inj hblind).2.symm
    cases e <;> exact hm₁

theorem machine_row (body rest : List Node) (d : Option Descent) (last : Value) (m : Machine ω) :
    (row body rest d last m).machine = m := by
  cases rest <;> rfl

theorem machine_arm (bodies : List Node) (body : Option Node) (d : Option Descent)
    (m : Machine ω) : (arm bodies body d m).machine = m := by
  cases body <;> rfl

theorem machine_region (body : Node) (handlers : List (Handler Node)) (cleanup : Option Node)
    (d : Option Descent) (m : Machine ω) : (region body handlers cleanup d m).machine = m := by
  unfold region
  split <;> rfl

theorem machine_clean (cleanup : Option Node) (pending : Flow) (m : Machine ω) :
    (clean cleanup pending m).machine = m := by
  cases cleanup <;> rfl

theorem machine_leaveRegion (body : Node) (handlers : List (Handler Node)) (cleanup : Option Node)
    (flow : Flow) (m : Machine ω) : (leaveRegion body handlers cleanup flow m).machine = m := by
  unfold leaveRegion
  split
  · split
    · exact machine_region ..
    · exact machine_clean ..
  · exact machine_clean ..

end Turn

/-- A call begins without touching the meter. -/
theorem Call.begin_metered {steps limit : Nat} {c : Call ω} (h : c.machine.Metered steps limit) :
    c.begin.machine.Metered steps limit := by
  obtain ⟨n, d, m⟩ := c
  have hm : m.Metered steps limit := h
  cases n with
  | nop => exact hm
  | eval e => exact Turn.machine_reading e.eval_blind hm fun _ _ h => h
  | assign target value =>
    refine Turn.machine_reading value.eval_blind hm fun v _ h => ?_
    exact congrArg (Machine.assign · target v) h
  | block locals body =>
    rw [Call.begin, Turn.machine_row]
    exact congrArg (Machine.declare · locals) hm
  | branch test yes no =>
    cases d with
    | some s => exact hm
    | none => exact Turn.machine_reading test.eval_blind hm fun v _ h => by cases v <;> exact h
  | loop body leave next => exact hm
  | label target default => exact hm
  | goto target value =>
    cases value with
    | none => exact hm
    | some e => exact Turn.machine_reading e.eval_blind hm fun _ _ h => h
  | switch value arms default =>
    cases d with
    | some s =>
      rw [Call.begin, Turn.machine_arm]
      exact hm
    | none =>
      refine Turn.machine_reading (choice_blind value arms) hm fun _ _ h => ?_
      rw [Turn.machine_arm]
      exact h
  | attempt body handlers cleanup =>
    rw [Call.begin, Turn.machine_region]
    exact hm
  | throw e => exact Turn.machine_reading e.eval_blind hm fun _ _ h => h
  | rethrow =>
    rw [Call.begin]
    cases m.handling.head? <;> exact hm

/-- A waiting node goes on without touching the meter. -/
theorem Waiting.resume_metered {steps limit : Nat} (w : Waiting) {r : Report ω}
    (h : (final r).Metered steps limit) : (w.resume r).machine.Metered steps limit := by
  cases w with
  | row body rest =>
    cases r with
    | error e m => exact h
    | ok flow m =>
      cases flow with
      | normal v => exact (Turn.machine_row ..).symm ▸ h
      | throw v => exact h
      | jump l v =>
        rw [Waiting.resume]
        cases placeOf l body <;> exact h
  | rounds body leave next =>
    cases r with
    | error e m => exact h
    | ok flow m =>
      cases flow with
      | normal v | throw v => exact h
      | jump l v =>
        rw [Waiting.resume]
        split
        · exact h
        split
        · exact h
        split <;> exact h
  | arms bodies =>
    cases r with
    | error e m => exact h
    | ok flow m =>
      cases flow with
      | normal v | throw v => exact h
      | jump l v =>
        rw [Waiting.resume]
        cases bodies.find? (·.defines l) <;> exact h
  | guarded body handlers cleanup =>
    cases r with
    | error e m => exact h
    | ok flow m =>
      cases flow with
      | normal v => exact (Turn.machine_clean ..).symm ▸ h
      | jump l v => exact (Turn.machine_leaveRegion body handlers cleanup (.jump l v) m).symm ▸ h
      | throw v =>
        rw [Waiting.resume]
        cases handlers.find? (v.isInstanceOf ·.kind) with
        | none => exact (Turn.machine_clean ..).symm ▸ h
        | some k =>
          have hnode := @Machine.Metered.node ω steps limit (.attempt body [k] cleanup)
          exact hnode.enter k (List.mem_singleton_self k) m v h trivial
  | handling body handlers cleanup =>
    have hend : (final r).endHandling.Metered steps limit := congrArg Machine.endHandling h
    cases r with
    | error e m => exact hend
    | ok flow m => exact (Turn.machine_leaveRegion ..).symm ▸ hend
  | cleaning pending =>
    cases r with
    | error e m => exact h
    | ok flow m => cases flow <;> exact h

/-- What a turn comes to has the meter that the turn has. -/
theorem Turn.Ends.metered {t : Turn ω} {k : Nat} {r : Report ω} {steps limit : Nat}
    (h : t.Ends k r) (ht : t.machine.Metered steps limit) : (final r).Metered steps limit := by
  induction h with
  | done => exact ht
  | tail _ ih => exact ih (Call.begin_metered ht)
  | @call c w k r₁ k' r _ _ ihinner ihlater =>
    exact ihlater (w.resume_metered (ihinner (Call.begin_metered ht)))

theorem Turn.comes_call {c : Call ω} {w : Waiting} {r : Report ω} :
    (Turn.call c w).Comes r ↔ ∃ r₁, c.begin.Comes r₁ ∧ (w.resume r₁).Comes r := by
  constructor
  · rintro ⟨_, h⟩
    cases h with
    | call inner later => exact ⟨_, ⟨_, inner⟩, ⟨_, later⟩⟩
  · rintro ⟨r₁, h, h'⟩
    exact .call h h'

theorem Turn.comes_done {r r' : Report ω} : (Turn.done r).Comes r' ↔ r' = r := by
  constructor
  · rintro ⟨_, h⟩
    cases h
    rfl
  · rintro rfl
    exact ⟨0, .done⟩

/-- An evaluation that fails is the end; an exception that it raises is the flow. -/
theorem Turn.comes_reading_error {α : Type} {e : EvalError} {m : Machine ω}
    {next : α → Machine ω → Turn ω} {r : Report ω} :
    (reading (.error e m) next).Comes r ↔
      (∃ v, e = .thrown v ∧ r = .ok (.throw v) m) ∨ (∀ v, e ≠ .thrown v) ∧ r = .error e m := by
  cases e <;> simp [reading, comes_done]

/-! ## Outcomes with enough fuel and steps -/

namespace Exec

/-- The outcome of an execution that comes to the report. -/
def reported : Report ω → EStateM.Result Halt (Machine ω) Flow
  | .ok flow m => .ok flow m
  | .error e m => .error (.failed e) m

/-- What an execution gives with enough fuel and steps: from some bound on it has this outcome, apart
from the meter, which is left as it was. -/
def Gives (run : Nat → Exec ω Flow) (m : Machine ω) (r : Report ω) : Prop :=
  ∃ least, ∀ fuel ≥ least, ∀ limit ≥ least,
    mapState (·.metered m.steps m.stepLimit) (run fuel (m.metered 0 limit)) = reported r

theorem reported_injective {r r' : Report ω} (h : reported r = reported r') : r = r' := by
  cases r <;> cases r' <;> cases h <;> rfl

theorem mapState_limited {r : Report ω} {steps limit steps' limit' : Nat}
    (h : (final r).Metered steps limit) :
    mapState (·.metered steps limit) (Turn.limited r steps' limit') = reported r := by
  cases r with
  | ok flow m => exact congrArg (EStateM.Result.ok flow) h
  | error e m => exact congrArg (EStateM.Result.error (Halt.failed e)) h

/-- What an execution gives is what the turn that it follows comes to. -/
theorem gives_iff_comes {run : Nat → Exec ω Flow} {m : Machine ω} {t : Turn ω} {r : Report ω}
    (hrun : ∀ fuel limit, Turn.Follows fuel 0 limit t (run fuel (m.metered 0 limit)))
    (ht : t.machine = m) : Gives run m r ↔ t.Comes r := by
  have hmetered : t.machine.Metered m.steps m.stepLimit := ht.symm ▸ rfl
  constructor
  · rintro ⟨least, h⟩
    -- An execution that is cut short tells its limit, and here two limits give the same.
    have hcut : ∀ limit ≥ least, (∃ r', t.Comes r' ∧ reported r' = reported r) ∨
        ∃ m', reported r = .error (.failed (.stepLimit limit)) m' := by
      intro limit hlimit
      have hgives := h least (Nat.le_refl _) limit hlimit
      rcases hrun least limit with ⟨k, r', hends, -, hx⟩ | ⟨⟨e, m', hx, he⟩, -⟩
      · rw [hx, mapState_limited (hends.metered hmetered)] at hgives
        exact .inl ⟨r', ⟨k, hends⟩, hgives⟩
      · rw [hx] at hgives
        rcases he with rfl | rfl
        · cases r <;> cases hgives
        · exact .inr ⟨_, hgives.symm⟩
    rcases hcut least (Nat.le_refl _) with ⟨r', hcomes, hr⟩ | ⟨m₁, h₁⟩
    · exact reported_injective hr ▸ hcomes
    rcases hcut (least + 1) (Nat.le_succ _) with ⟨r', hcomes, hr⟩ | ⟨m₂, h₂⟩
    · exact reported_injective hr ▸ hcomes
    · rw [h₁] at h₂
      cases h₂
  · rintro ⟨k, hends⟩
    refine ⟨k + 1, fun fuel hfuel limit hlimit => ?_⟩
    rcases hrun fuel limit with ⟨k', r', hends', -, hx⟩ | ⟨-, hlong⟩
    · obtain ⟨-, rfl⟩ := hends'.unique hends
      rw [hx, mapState_limited (hends.metered hmetered)]
    · have := hlong k r hends
      omega

end Exec

namespace Node

variable {n : Node} {d : Option Descent} {m : Machine ω} {r r' : Report ω}

/-- What a node gives with enough fuel and steps, from its start or from the place that is sought. -/
def Yields (n : Node) (d : Option Descent) (m : Machine ω) (r : Report ω) : Prop :=
  Gives (fun fuel => n.execWithin fuel d) m r

/-- What the statements of a row give with enough fuel and steps, from some of them on; jumps to a
place among all of them stay in the row. -/
def RowYields (body rest : List Node) (d : Option Descent) (m : Machine ω) (r : Report ω) : Prop :=
  Gives (fun fuel => sequence (execWithin fuel) body fuel rest d .void) m r

theorem yields_iff_comes : n.Yields d m r ↔ (⟨n, d, m⟩ : Call ω).begin.Comes r := by
  rw [← Turn.comes_tail]
  exact gives_iff_comes (fun fuel limit => execWithin_follows fuel limit ⟨n, d, m⟩ 0) rfl

theorem rowYields_iff_comes {body rest : List Node} :
    RowYields body rest d m r ↔ (Turn.row body rest d .void m).Comes r :=
  gives_iff_comes (fun fuel limit => Turn.sequence_follows (execWithin_follows fuel limit)
    (Nat.le_refl _) (Nat.zero_le _) d .void .void m fun _ => rfl) (Turn.machine_row ..)

/-- A node gives one thing at most. -/
theorem Yields.unique (h : n.Yields d m r) (h' : n.Yields d m r') : r = r' := by
  obtain ⟨k, hk⟩ := yields_iff_comes.mp h
  obtain ⟨k', hk'⟩ := yields_iff_comes.mp h'
  exact (hk.unique hk').2

/-- A branch is decided by its test. -/
theorem branch_yields_iff {test : Expr} {yes no : Node} :
    (branch test yes no).Yields none m r ↔
      (∃ m₁, test.eval m = .ok (.bool true) m₁ ∧ yes.Yields none m₁ r) ∨
        (∃ m₁, test.eval m = .ok (.bool false) m₁ ∧ no.Yields none m₁ r) ∨
        (∃ v m₁, test.eval m = .error (.thrown v) m₁ ∧ r = .ok (.throw v) m₁) ∨
        (∃ e m₁, test.eval m = .error e m₁ ∧ (∀ v, e ≠ .thrown v) ∧ r = .error e m₁) ∨
        ∃ v m₁, test.eval m = .ok v m₁ ∧ (∀ b, v ≠ .bool b) ∧
          r = .error (.typeError (.test v)) m₁ := by
  rw [yields_iff_comes, Call.begin]
  cases h : test.eval m with
  | error e m₁ => cases e <;> simp [Turn.reading, Turn.comes_done]
  | ok v m₁ =>
    cases v with
    | bool holds =>
      cases holds <;> simp [Turn.reading, Turn.comes_tail, yields_iff_comes]
    | _ => simp [Turn.reading, Turn.comes_done]

/-! ## Marks at the start -/

section Marks

variable {entry : Label} {body : Node}

/-- A node that begins with a mark does the same from the mark on as from its start. -/
theorem Begins.comes_iff (h : Begins (.mark entry) body) :
    (⟨body, some ⟨entry.id, none⟩, m⟩ : Call ω).begin.Comes r ↔
      (⟨body, none, m⟩ : Call ω).begin.Comes r := by
  have hmark : ∀ m : Machine ω, (⟨.mark entry, some ⟨entry.id, none⟩, m⟩ : Call ω).begin =
      (⟨.mark entry, none, m⟩ : Call ω).begin := by
    intro m
    simp [mark, Call.begin, labelValue]
  cases h with
  | alone => rw [hmark]
  | block locals rest =>
    have hplace : placeOf entry.id (.mark entry :: rest) = .mark entry :: rest := by
      simp [placeOf, mark, defines]
    dsimp only [Call.begin, opening]
    rw [hplace, Turn.row, Turn.row, Turn.comes_call, Turn.comes_call, hmark]

theorem Begins.defines (h : Begins (.mark entry) body) : body.defines entry.id = true := by
  cases h with
  | alone => simp [mark, Node.defines]
  | block locals rest => simp [mark, Node.defines]

end Marks

end Node

end StructuredFlow
