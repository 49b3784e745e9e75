import StructuredFlow.Proofs.Metering
import StructuredFlow.Proofs.Visits

/-
  The count of steps. Steps are only ever added, one for each node that is started. A program that
  goes on has counted no further than the limit, and one that stops has counted at most the step
  that met the limit on top (`Counting`). The execution of a node counts a step before all else, so
  when it goes on, it goes on with fewer steps left than it began with (`Node.execWithin_ticking`).
  So do the calls that it makes (`Node.Visits.stepsLeft_lt`).
-/

namespace StructuredFlow

variable {ω : Type} {ε α β : Type}

open Outcome

namespace Machine

/-- How many steps can be counted before the limit is met. -/
def stepsLeft (m : Machine ω) : Nat :=
  m.stepLimit - m.steps

/-- From one machine to a later one steps have been counted, and none beyond the limit. -/
structure Spends (m m' : Machine ω) : Prop where
  stepLimit : m'.stepLimit = m.stepLimit
  forward : m.steps ≤ m'.steps
  within : m'.steps ≤ m.steps + m.stepsLeft

/-- From one machine to a later one at least one step has been counted. -/
structure Ticks (m m' : Machine ω) : Prop where
  stepLimit : m'.stepLimit = m.stepLimit
  forward : m.steps < m'.steps
  within : m'.steps ≤ m'.stepLimit

/-- From one machine to a later one steps have been counted, and at most one beyond the limit. -/
structure Overspends (m m' : Machine ω) : Prop where
  stepLimit : m'.stepLimit = m.stepLimit
  forward : m.steps ≤ m'.steps
  within : m'.steps ≤ m.steps + m.stepsLeft + 1

variable {m m' m'' : Machine ω}

theorem Spends.of_eq (hlimit : m'.stepLimit = m.stepLimit) (hsteps : m'.steps = m.steps) :
    m.Spends m' :=
  ⟨hlimit, Nat.le_of_eq hsteps.symm, Nat.le_trans (Nat.le_of_eq hsteps) (Nat.le_add_right _ _)⟩

theorem Spends.refl (m : Machine ω) : m.Spends m :=
  .of_eq rfl rfl

theorem Spends.trans (h : m.Spends m') (h' : m'.Spends m'') : m.Spends m'' where
  stepLimit := h'.stepLimit.trans h.stepLimit
  forward := Nat.le_trans h.forward h'.forward
  within := by
    have := h.within
    have := h'.within
    have := h.stepLimit
    unfold stepsLeft at *
    omega

theorem Spends.overspends (h : m.Spends m') : m.Overspends m' :=
  ⟨h.stepLimit, h.forward, Nat.le_succ_of_le h.within⟩

theorem Spends.trans_overspends (h : m.Spends m') (h' : m'.Overspends m'') : m.Overspends m'' where
  stepLimit := h'.stepLimit.trans h.stepLimit
  forward := Nat.le_trans h.forward h'.forward
  within := by
    have := h.within
    have := h'.within
    have := h.stepLimit
    unfold stepsLeft at *
    omega

theorem Spends.stepsLeft_le (h : m.Spends m') : m'.stepsLeft ≤ m.stepsLeft := by
  have := h.forward
  have := h.stepLimit
  unfold stepsLeft
  omega

theorem Ticks.spends (h : m.Ticks m') : m.Spends m' where
  stepLimit := h.stepLimit
  forward := Nat.le_of_lt h.forward
  within := by
    have := h.within
    have := h.stepLimit
    unfold stepsLeft
    omega

theorem Ticks.trans_spends (h : m.Ticks m') (h' : m'.Spends m'') : m.Ticks m'' where
  stepLimit := h'.stepLimit.trans h.stepLimit
  forward := Nat.lt_of_lt_of_le h.forward h'.forward
  within := by
    have := h.within
    have := h'.within
    have := h'.stepLimit
    unfold stepsLeft at *
    omega

theorem Ticks.trans_overspends (h : m.Ticks m') (h' : m'.Overspends m'') : m.Overspends m'' :=
  h.spends.trans_overspends h'

/-- With each step that is counted, fewer are left. -/
theorem Ticks.stepsLeft_lt (h : m.Ticks m') : m'.stepsLeft < m.stepsLeft := by
  have := h.forward
  have := h.within
  have := h.stepLimit
  unfold stepsLeft
  omega

end Machine

open Machine

/-! ## Programs that count -/

/-- The program counts steps within the limit; if it stops, at most the one that meets the limit is
beyond. -/
structure Counting (x : EStateM ε (Machine ω) α) : Prop where
  ok : ∀ {m a m'}, x m = .ok a m' → m.Spends m'
  error : ∀ {m e m'}, x m = .error e m' → m.Overspends m'

namespace Counting

/-- A program that leaves the meter alone. -/
theorem of_final {x : EStateM ε (Machine ω) α}
    (h : ∀ m : Machine ω, m.Spends (Outcome.final (x m))) : Counting x where
  ok {m a m'} hx := by
    have := h m
    rwa [hx] at this
  error {m e m'} hx := by
    have := h m
    rw [hx] at this
    exact this.overspends

theorem pure (a : α) : Counting (pure a : EStateM ε (Machine ω) α) :=
  of_final Spends.refl

theorem throw (e : ε) : Counting (throw e : EStateM ε (Machine ω) α) :=
  of_final Spends.refl

theorem modify {f : Machine ω → Machine ω} (hf : ∀ m : Machine ω, m.Spends (f m)) :
    Counting (modify f : EStateM ε (Machine ω) PUnit) :=
  of_final hf

theorem andThen {x : EStateM ε (Machine ω) α} {f : α → EStateM ε (Machine ω) β} (hx : Counting x)
    (hf : ∀ a, Counting (f a)) : Counting (x >>= f) where
  ok h := by
    obtain ⟨a, m₁, ha, h⟩ := andThen_ok.mp h
    exact (hx.ok ha).trans ((hf a).ok h)
  error h := by
    rcases andThen_error.mp h with h | ⟨a, m₁, ha, h⟩
    · exact hx.error h
    · exact (hx.ok ha).trans_overspends ((hf a).error h)

theorem final {x : EStateM ε (Machine ω) α} (hx : Counting x) (m : Machine ω) :
    m.Overspends (Outcome.final (x m)) := by
  cases h : x m with
  | ok a m' => exact (hx.ok h).overspends
  | error e m' => exact hx.error h

end Counting

/-- What neither reads nor changes the meter counts no steps. -/
theorem Blind.final_metered {x : EStateM ε (Machine ω) α} (hx : Blind x) (m : Machine ω) :
    (final (x m)).steps = m.steps ∧ (final (x m)).stepLimit = m.stepLimit := by
  have h : x m = mapState (·.metered m.steps m.stepLimit) (x m) := hx m m.steps m.stepLimit
  rw [h]
  cases x m <;> exact ⟨rfl, rfl⟩

theorem Blind.spends {x : EStateM ε (Machine ω) α} (hx : Blind x) (m : Machine ω) :
    m.Spends (final (x m)) :=
  .of_eq (hx.final_metered m).2 (hx.final_metered m).1

theorem Blind.spends_ok {x : EStateM ε (Machine ω) α} (hx : Blind x) {m m' : Machine ω} {a : α}
    (h : x m = .ok a m') : m.Spends m' := by
  have := hx.spends m
  rwa [h] at this

theorem Blind.spends_error {x : EStateM ε (Machine ω) α} (hx : Blind x) {m m' : Machine ω} {e : ε}
    (h : x m = .error e m') : m.Spends m' := by
  have := hx.spends m
  rwa [h] at this

/-- The program counts a step before all else. -/
structure Ticking (x : EStateM ε (Machine ω) α) : Prop where
  ok : ∀ {m a m'}, x m = .ok a m' → m.Ticks m'
  error : ∀ {m e m'}, x m = .error e m' → m.Overspends m'

theorem Ticking.andThen {x : EStateM ε (Machine ω) α} {f : α → EStateM ε (Machine ω) β}
    (hx : Ticking x) (hf : ∀ a, Counting (f a)) : Ticking (x >>= f) where
  ok h := by
    obtain ⟨a, m₁, ha, h⟩ := andThen_ok.mp h
    exact (hx.ok ha).trans_spends ((hf a).ok h)
  error h := by
    rcases andThen_error.mp h with h | ⟨a, m₁, ha, h⟩
    · exact hx.error h
    · exact (hx.ok ha).trans_overspends ((hf a).error h)

theorem Ticking.counting {x : EStateM ε (Machine ω) α} (hx : Ticking x) : Counting x :=
  ⟨fun h => (hx.ok h).spends, hx.error⟩

/-! ## Execution -/

namespace Exec

theorem fail_counting (e : EvalError) : Counting (fail e : Exec ω α) :=
  .throw _

theorem exhausted_counting : Counting (exhausted : Exec ω α) :=
  .throw _

theorem tick_ticking : Ticking (tick : Exec ω Unit) where
  ok {m u m'} h := by
    unfold tick at h
    dsimp only at h
    split at h
    · cases h
    next hlimit =>
      cases h
      exact ⟨rfl, Nat.lt_succ_self _, Nat.le_of_not_lt hlimit⟩
  error {m e m'} h := by
    unfold tick at h
    dsimp only at h
    split at h
    · cases h
      exact ⟨rfl, Nat.le_succ _, Nat.succ_le_succ (Nat.le_add_right _ _)⟩
    · cases h

/-- A handler ends with the flow of its body, and the exception is no longer handled. -/
theorem handle_ok {run : Runner ω} {h : Handler Node} {v : Value} {m m' : Machine ω} {flow : Flow} :
    handle run h v m = .ok flow m' ↔
      ∃ m₁, run h.body none (h.enter v m) = .ok flow m₁ ∧ m' = m₁.endHandling := by
  rw [handle_eq]
  cases run h.body none (h.enter v m) with
  | ok flow' m₁ =>
    constructor
    · intro hm
      cases hm
      exact ⟨m₁, rfl, rfl⟩
    · rintro ⟨_, hm, rfl⟩
      cases hm
      rfl
  | error e m₁ => simp

theorem handle_error {run : Runner ω} {h : Handler Node} {v : Value} {m m' : Machine ω}
    {e : Halt} : handle run h v m = .error e m' ↔
      ∃ m₁, run h.body none (h.enter v m) = .error e m₁ ∧ m' = m₁.endHandling := by
  rw [handle_eq]
  cases run h.body none (h.enter v m) with
  | ok flow m₁ => simp
  | error e' m₁ =>
    constructor
    · intro hm
      cases hm
      exact ⟨m₁, rfl, rfl⟩
    · rintro ⟨_, hm, rfl⟩
      cases hm
      rfl

theorem spends_enter (h : Handler Node) (v : Value) (m : Machine ω) : m.Spends (h.enter v m) := by
  refine .of_eq (h.stepLimit_enter v m) ?_
  unfold Handler.enter
  split <;> rfl

theorem evaluating_counting {x : Eval ω α} {next : α → Exec ω Flow} (hx : Blind x)
    (hnext : ∀ a, Counting (next a)) : Counting (evaluating x next) where
  ok {m flow m'} h := by
    unfold evaluating at h
    cases hm : x m with
    | ok a m₁ =>
      rw [hm] at h
      exact (hx.spends_ok hm).trans ((hnext a).ok h)
    | error e m₁ =>
      rw [hm] at h
      cases e with
      | thrown v =>
        cases h
        exact hx.spends_error hm
      | _ => cases h
  error {m e m'} h := by
    unfold evaluating at h
    cases hm : x m with
    | ok a m₁ =>
      rw [hm] at h
      exact (hx.spends_ok hm).trans_overspends ((hnext a).error h)
    | error e m₁ =>
      rw [hm] at h
      cases e with
      | thrown v => cases h
      | _ =>
        cases h
        exact (hx.spends_error hm).overspends

section

variable {run : Runner ω} (hrun : ∀ n d, Counting (run n d))
include hrun

theorem sequence_counting (body : List Node) (fuel : Nat) (rest : List Node) (d : Option Descent)
    (last : Value) : Counting (sequence run body fuel rest d last) := by
  induction fuel generalizing rest d last with
  | zero =>
    cases rest with
    | nil => exact .pure _
    | cons n rest => exact exhausted_counting
  | succ fuel ih =>
    cases rest with
    | nil => exact .pure _
    | cons n rest =>
      refine (hrun n d).andThen fun flow => ?_
      split
      · exact ih _ _ _
      · exact .pure _
      · split
        · exact .pure _
        · exact ih _ _ _

theorem rounds_counting (body : Node) (leave next : Label) (fuel : Nat) (d : Option Descent) :
    Counting (rounds run body leave next fuel d) := by
  induction fuel generalizing d with
  | zero => exact exhausted_counting
  | succ fuel ih =>
    refine (hrun body d).andThen fun flow => ?_
    split
    · exact ih _
    · exact .pure _
    · split
      · exact .pure _
      · split
        · exact ih _
        · split
          · exact ih _
          · exact .pure _

theorem arms_counting (bodies : List Node) (fuel : Nat) (body : Option Node) (d : Option Descent) :
    Counting (arms run bodies fuel body d) := by
  induction fuel generalizing body d with
  | zero =>
    cases body with
    | none => exact .pure _
    | some body => exact exhausted_counting
  | succ fuel ih =>
    cases body with
    | none => exact .pure _
    | some body =>
      refine (hrun body d).andThen fun flow => ?_
      split
      · split
        · exact ih _ _
        · exact .pure _
      · exact .pure _

/-- Entering and leaving a handler costs nothing by itself. -/
theorem handle_counting (h : Handler Node) (exception : Value) :
    Counting (handle run h exception) where
  ok hm := by
    obtain ⟨m₁, hbody, rfl⟩ := handle_ok.mp hm
    have hspends := (spends_enter h exception _).trans ((hrun _ _).ok hbody)
    exact ⟨hspends.stepLimit, hspends.forward, hspends.within⟩
  error hm := by
    obtain ⟨m₁, hbody, rfl⟩ := handle_error.mp hm
    have hspends := (spends_enter h exception _).trans_overspends ((hrun _ _).error hbody)
    exact ⟨hspends.stepLimit, hspends.forward, hspends.within⟩

theorem dispatch_counting (handlers : List (Handler Node)) (flow : Flow) :
    Counting (dispatch run handlers flow) := by
  unfold dispatch
  split
  · split
    · exact handle_counting hrun _ _
    · exact .pure _
  · exact .pure _

theorem cleaning_counting (cleanup : Option Node) (pending : Flow) :
    Counting (cleaning run cleanup pending) := by
  unfold cleaning
  split
  · exact .pure _
  · refine (hrun _ _).andThen fun flow => ?_
    split <;> exact .pure _

theorem region_counting (body : Node) (handlers : List (Handler Node)) (cleanup : Option Node)
    (fuel : Nat) (d : Option Descent) : Counting (region run body handlers cleanup fuel d) := by
  induction fuel generalizing d with
  | zero => exact exhausted_counting
  | succ fuel ih =>
    unfold region
    split
    · exact fail_counting _
    · exact hrun _ _
    · refine (hrun body d).andThen fun flow => (dispatch_counting hrun handlers flow).andThen ?_
      intro flow
      split
      · split
        · exact ih _
        · exact cleaning_counting hrun _ _
      · exact cleaning_counting hrun _ _

end

end Exec

namespace Node

open Exec

/-- A step counts itself first, whatever is done below it. -/
theorem step_ticking {run : Runner ω} (hrun : ∀ n d, Counting (run n d)) (fuel : Nat) (n : Node)
    (d : Option Descent) : Ticking (n.step run fuel d) := by
  refine tick_ticking.andThen fun _ => ?_
  cases n with
  | nop => exact .pure _
  | eval e => exact evaluating_counting e.eval_blind fun _ => .pure _
  | assign target value =>
    refine evaluating_counting value.eval_blind fun v => ?_
    exact Counting.andThen (.modify fun m => .of_eq rfl rfl) fun _ => .pure _
  | block locals body =>
    refine Counting.andThen (.modify fun m => .of_eq rfl rfl) fun _ => ?_
    split <;> exact sequence_counting hrun _ _ _ _ _
  | branch test yes no =>
    cases d with
    | some s =>
      dsimp only
      split <;> exact hrun _ _
    | none =>
      refine evaluating_counting test.eval_blind fun v => ?_
      split
      · exact hrun _ _
      · exact hrun _ _
      · exact fail_counting _
  | loop body leave next => exact rounds_counting hrun _ _ _ _ _
  | label target default => exact .pure _
  | goto target value =>
    cases value with
    | none => exact .pure _
    | some e => exact evaluating_counting e.eval_blind fun _ => .pure _
  | switch value cases default =>
    cases d with
    | some s => exact arms_counting hrun _ _ _ _
    | none =>
      exact evaluating_counting (choice_blind value cases) fun selected =>
        arms_counting hrun _ _ _ _
  | attempt body handlers cleanup => exact region_counting hrun _ _ _ _ _
  | throw e => exact evaluating_counting e.eval_blind fun _ => .pure _
  | rethrow =>
    refine Counting.andThen (x := get) (.of_final Spends.refl) fun m => ?_
    split
    · exact .pure _
    · exact fail_counting _

/-- The execution of any node, in any machine and with any place to be found, counts a step first,
and at most one beyond the limit. -/
theorem execWithin_ticking (fuel : Nat) (n : Node) (d : Option Descent) :
    Ticking (n.execWithin fuel d : Exec ω Flow) := by
  induction fuel generalizing n d with
  | zero => exact ⟨nofun, exhausted_counting.error⟩
  | succ fuel ih => exact step_ticking (fun n d => (ih n d).counting) fuel n d

end Node

/-! ## Calls -/

namespace Exec

variable {run : Runner ω} (hrun : ∀ n d, Counting (run n d)) {fuel : Nat} {d : Option Descent}
  {m : Machine ω} {c : Call ω}
include hrun

theorem SequenceCalls.spends {body rest : List Node}
    (h : SequenceCalls run body fuel rest d m c) : m.Spends c.machine := by
  induction h with
  | head => exact .refl _
  | next done _ ih => exact ((hrun _ _).ok done).trans ih
  | again jumped _ ih => exact ((hrun _ _).ok jumped).trans ih

theorem RoundsCalls.spends {body : Node} {leave next : Label}
    (h : RoundsCalls run body leave next fuel d m c) : m.Spends c.machine := by
  induction h with
  | head => exact .refl _
  | next done _ ih => exact ((hrun _ _).ok done).trans ih
  | continued jumped _ _ _ ih => exact ((hrun _ _).ok jumped).trans ih
  | again jumped _ _ _ _ ih => exact ((hrun _ _).ok jumped).trans ih

theorem ArmsCalls.spends {bodies : List Node} {first : Option Node}
    (h : ArmsCalls run bodies fuel first d m c) : m.Spends c.machine := by
  induction h with
  | head => exact .refl _
  | again jumped _ ih => exact ((hrun _ _).ok jumped).trans ih

theorem RegionCalls.spends {body : Node} {handlers : List (Handler Node)} {cleanup : Option Node}
    {entered : Option (Handler Node × Value)}
    (h : RegionCalls run body handlers cleanup fuel d m entered c) : m.Spends c.machine := by
  induction h with
  | entered => exact .refl _
  | body => exact .refl _
  | handler start threw => exact ((hrun _ _).ok threw).trans (spends_enter _ _ _)
  | cleaning start ended dispatched =>
    exact ((hrun _ _).ok ended).trans ((dispatch_counting hrun _ _).ok dispatched)
  | again start ended dispatched _ _ ih =>
    exact (((hrun _ _).ok ended).trans ((dispatch_counting hrun _ _).ok dispatched)).trans ih

end Exec

namespace Node

open Exec

variable {fuel : Nat} {d : Option Descent} {m : Machine ω} {c : Call ω}
  {entered : Option (Handler Node × Value)}

/-- A call comes after the step of its node. -/
theorem Calls.ticks {n : Node} (h : Calls fuel n d m entered c) : m.Ticks c.machine := by
  have hcounting := fun fuel n d => (execWithin_ticking (ω := ω) fuel n d).counting
  cases h with
  | @block _ locals body _ _ m₁ _ ticked call =>
    have hdeclare : m₁.Spends (m₁.declare locals) := .of_eq rfl rfl
    exact ((tick_ticking.ok ticked).trans_spends hdeclare).trans_spends (call.spends (hcounting _))
  | sought ticked => exact tick_ticking.ok ticked
  | tested ticked value =>
    exact (tick_ticking.ok ticked).trans_spends ((Expr.eval_blind _).spends_ok value)
  | loop ticked call => exact (tick_ticking.ok ticked).trans_spends (call.spends (hcounting _))
  | armSought ticked call => exact (tick_ticking.ok ticked).trans_spends (call.spends (hcounting _))
  | armSelected ticked selected call =>
    exact ((tick_ticking.ok ticked).trans_spends ((choice_blind _ _).spends_ok selected)).trans_spends
      (call.spends (hcounting _))
  | attempt ticked call => exact (tick_ticking.ok ticked).trans_spends (call.spends (hcounting _))

/-- With fuel for more steps than are left, every visit has it too. -/
theorem Visits.stepsLeft_lt {fuel' : Nat} {around : List Node}
    {caught : List (Handler Node × Value)} {c' : Call ω}
    (h : Visits fuel c fuel' around caught c') (hc : c.machine.stepsLeft < fuel) :
    c'.machine.stepsLeft < fuel' := by
  induction h with
  | here => exact hc
  | inside call _ ih => exact ih (Nat.lt_of_lt_of_le call.ticks.stepsLeft_lt (Nat.le_of_lt_succ hc))

end Node

end StructuredFlow
