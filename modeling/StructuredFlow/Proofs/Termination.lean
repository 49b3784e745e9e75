import StructuredFlow.Proofs.StepsCounted

/-
  Execution ends. Fuel is used up one at a time where a step is counted, so with more fuel than
  steps are left the limit is met first, and it makes no difference how much more there is
  (`Node.execWithin_settled`). What is behind this is that none of the four loops of the machine
  comes to its next iteration without a step counted (`Exec.Iterates`): no tree, however its labels
  are set, gets around the limit (`Node.exec_terminates`).
-/

namespace StructuredFlow

variable {ω : Type} {α β : Type}

open Outcome Machine

/-- In machines with so few steps left, the programs do the same, and not for a lack of fuel. -/
def Settled (size : Nat) (x y : Exec ω α) : Prop :=
  ∀ m, m.stepsLeft < size → y m = x m ∧ ∀ m', x m ≠ .error .outOfFuel m'

namespace Settled

variable {size : Nat} {x y : Exec ω α} {f g : α → Exec ω β}

theorem mono (h : Settled size x y) {size' : Nat} (hle : size' ≤ size) : Settled size' x y :=
  fun m hm => h m (Nat.lt_of_lt_of_le hm hle)

/-- No machine has fewer than no steps left. -/
theorem zero : Settled 0 x y :=
  fun _ hm => absurd hm (Nat.not_lt_zero _)

theorem pure (a : α) : Settled size (pure a : Exec ω α) (pure a) :=
  fun _ _ => ⟨rfl, nofun⟩

theorem fail (e : EvalError) : Settled size (Exec.fail e : Exec ω α) (Exec.fail e) :=
  fun _ _ => ⟨rfl, nofun⟩

theorem tick : Settled size (Exec.tick : Exec ω Unit) Exec.tick := by
  refine fun m _ => ⟨rfl, fun m' h => ?_⟩
  cases Exec.tick_error h

/-- Programs in two parts, where the second part begins with that many steps left. -/
theorem andThen_of {size' : Nat} (hx : Settled size x y)
    (hleft : ∀ m a m', m.stepsLeft < size → x m = .ok a m' → m'.stepsLeft < size')
    (hf : ∀ a, Settled size' (f a) (g a)) : Settled size (x >>= f) (y >>= g) := by
  intro m hm
  obtain ⟨hsame, hlasts⟩ := hx m hm
  refine ⟨?_, fun m' h => ?_⟩
  · show EStateM.bind y g m = EStateM.bind x f m
    unfold EStateM.bind
    rw [hsame]
    cases h : x m with
    | ok a m₁ => exact (hf a m₁ (hleft m a m₁ hm h)).1
    | error e m₁ => rfl
  · rcases andThen_error.mp h with h | ⟨a, m₁, ha, h⟩
    · exact hlasts m' h
    · exact (hf a m₁ (hleft m a m₁ hm ha)).2 m' h

theorem andThen (hx : Settled size x y) (hcounting : Counting x)
    (hf : ∀ a, Settled size (f a) (g a)) : Settled size (x >>= f) (y >>= g) :=
  hx.andThen_of
    (fun _ _ _ hm h => Nat.lt_of_le_of_lt (hcounting.ok h).stepsLeft_le hm) hf

/-- After a step there is one less to be left. -/
theorem andThen_ticking (hx : Settled (size + 1) x y) (hticking : Ticking x)
    (hf : ∀ a, Settled size (f a) (g a)) : Settled (size + 1) (x >>= f) (y >>= g) :=
  hx.andThen_of
    (fun _ _ _ hm h => Nat.lt_of_lt_of_le (hticking.ok h).stepsLeft_lt (Nat.le_of_lt_succ hm)) hf

theorem evaluating {x : Eval ω α} {next next' : α → Exec ω Flow} (hx : Blind x)
    (hnext : ∀ a, Settled size (next a) (next' a)) :
    Settled size (Exec.evaluating x next) (Exec.evaluating x next') := by
  intro m hm
  unfold Exec.evaluating
  cases h : x m with
  | ok a m₁ =>
    exact hnext a m₁ (Nat.lt_of_le_of_lt (hx.spends_ok h).stepsLeft_le hm)
  | error e m₁ => cases e <;> exact ⟨rfl, nofun⟩

end Settled

namespace Exec

section

variable {run run' : Runner ω} {size : Nat}
  (hrun : ∀ n d, Settled size (run n d) (run' n d)) (hticking : ∀ n d, Ticking (run n d))
include hrun hticking

theorem sequence_settled (body : List Node) {fuel : Nat} (hfuel : fuel ≤ size) (k : Nat)
    (rest : List Node) (d : Option Descent) (last : Value) :
    Settled fuel (sequence run body fuel rest d last)
      (sequence run' body (fuel + k) rest d last) := by
  induction fuel generalizing rest d last with
  | zero => exact .zero
  | succ fuel ih =>
    rw [Nat.add_right_comm]
    cases rest with
    | nil => exact .pure _
    | cons n rest =>
      refine ((hrun n d).mono hfuel).andThen_ticking (hticking n d) fun flow => ?_
      have ih := ih (Nat.le_of_succ_le hfuel)
      cases flow with
      | normal v => exact ih _ _ _
      | throw v => exact .pure _
      | jump l v =>
        dsimp only
        split
        · exact .pure _
        · exact ih _ _ _

theorem rounds_settled (body : Node) (leave next : Label) {fuel : Nat} (hfuel : fuel ≤ size)
    (k : Nat) (d : Option Descent) :
    Settled fuel (rounds run body leave next fuel d) (rounds run' body leave next (fuel + k) d) := by
  induction fuel generalizing d with
  | zero => exact .zero
  | succ fuel ih =>
    rw [Nat.add_right_comm]
    refine ((hrun body d).mono hfuel).andThen_ticking (hticking body d) fun flow => ?_
    have ih := ih (Nat.le_of_succ_le hfuel)
    cases flow with
    | normal v => exact ih _
    | throw v => exact .pure _
    | jump l v =>
      dsimp only
      split
      · exact .pure _
      · split
        · exact ih _
        · split
          · exact ih _
          · exact .pure _

theorem arms_settled (bodies : List Node) {fuel : Nat} (hfuel : fuel ≤ size) (k : Nat)
    (body : Option Node) (d : Option Descent) :
    Settled fuel (arms run bodies fuel body d) (arms run' bodies (fuel + k) body d) := by
  induction fuel generalizing body d with
  | zero => exact .zero
  | succ fuel ih =>
    rw [Nat.add_right_comm]
    cases body with
    | none => exact .pure _
    | some body =>
      refine ((hrun body d).mono hfuel).andThen_ticking (hticking body d) fun flow => ?_
      cases flow with
      | normal v => exact .pure _
      | throw v => exact .pure _
      | jump l v =>
        dsimp only
        split
        · exact ih (Nat.le_of_succ_le hfuel) _ _
        · exact .pure _

omit hticking in
theorem handle_settled (h : Handler Node) (exception : Value) :
    Settled size (handle run h exception) (handle run' h exception) := by
  intro m hm
  have henter := (spends_enter h exception m).stepsLeft_le
  obtain ⟨hsame, hlasts⟩ :=
    hrun h.body none (h.enter exception m) (Nat.lt_of_le_of_lt henter hm)
  refine ⟨by rw [handle_eq, handle_eq, hsame], fun m' h => ?_⟩
  obtain ⟨m₁, h, -⟩ := handle_error.mp h
  exact hlasts m₁ h

omit hticking in
theorem dispatch_settled (handlers : List (Handler Node)) (flow : Flow) :
    Settled size (dispatch run handlers flow) (dispatch run' handlers flow) := by
  unfold dispatch
  cases flow with
  | throw v =>
    dsimp only
    split
    · exact handle_settled hrun _ _
    · exact .pure _
  | _ => exact .pure _

theorem cleaning_settled (cleanup : Option Node) (pending : Flow) :
    Settled size (cleaning run cleanup pending) (cleaning run' cleanup pending) := by
  cases cleanup with
  | none => exact .pure _
  | some n =>
    refine (hrun n none).andThen (hticking n none).counting fun flow => ?_
    cases flow <;> exact .pure _

theorem region_settled (body : Node) (handlers : List (Handler Node)) (cleanup : Option Node)
    {fuel : Nat} (hfuel : fuel ≤ size) (k : Nat) (d : Option Descent) :
    Settled fuel (region run body handlers cleanup fuel d)
      (region run' body handlers cleanup (fuel + k) d) := by
  induction fuel generalizing d with
  | zero => exact .zero
  | succ fuel ih =>
    rw [Nat.add_right_comm]
    have hcounting : ∀ n d, Counting (run n d) := fun n d => (hticking n d).counting
    have hfuel' := Nat.le_of_succ_le hfuel
    unfold region
    split
    · exact .fail _
    · exact (hrun _ _).mono hfuel
    · refine ((hrun body d).mono hfuel).andThen_ticking (hticking body d) fun flow => ?_
      refine ((dispatch_settled hrun handlers flow).mono hfuel').andThen
        (dispatch_counting hcounting handlers flow) fun flow => ?_
      have hclean := (cleaning_settled hrun hticking cleanup flow).mono hfuel'
      cases flow with
      | normal v => exact hclean
      | throw v => exact hclean
      | jump l v =>
        dsimp only
        split
        · exact ih hfuel' _
        · exact hclean

end

end Exec

/-! ## Iterations -/

namespace Exec

/-- A loop of the machine either comes to its next iteration with a step counted since, or it ends
as it does whatever fuel is left. -/
def Iterates {σ : Type} (loop : Nat → σ → Exec ω Flow) (s : σ) (m : Machine ω) : Prop :=
  (∃ s' m', m.Ticks m' ∧ ∀ fuel, loop (fuel + 1) s m = loop fuel s' m') ∨
    ∃ r, ∀ fuel, loop (fuel + 1) s m = r

/-- What begins with a program that counts a step iterates, if each flow of that program ends the
loop or begins its next iteration. -/
theorem Iterates.of_andThen {σ : Type} {loop : Nat → σ → Exec ω Flow} {s : σ} {m : Machine ω}
    {x : Exec ω α} {f : Nat → α → Exec ω Flow} (hloop : ∀ fuel, loop (fuel + 1) s m = (x >>= f fuel) m)
    (hx : Ticking x)
    (hf : ∀ a m', x m = .ok a m' →
      (∃ s' m'', m'.Spends m'' ∧ ∀ fuel, f fuel a m' = loop fuel s' m'') ∨
        ∃ r, ∀ fuel, f fuel a m' = r) : Iterates loop s m := by
  have hbind : ∀ fuel, (x >>= f fuel) m = EStateM.bind x (f fuel) m := fun _ => rfl
  unfold Iterates
  simp only [hloop, hbind, EStateM.bind]
  cases h : x m with
  | error e m₁ => exact .inr ⟨_, fun _ => rfl⟩
  | ok a m₁ =>
    rcases hf a m₁ h with ⟨s', m₂, hspends, hnext⟩ | hend
    · exact .inl ⟨s', m₂, (hx.ok h).trans_spends hspends, hnext⟩
    · exact .inr hend

variable {run : Runner ω} (hrun : ∀ n d, Ticking (run n d))
include hrun

theorem sequence_iterates (body rest : List Node) (d : Option Descent) (last : Value)
    (m : Machine ω) :
    Iterates (fun fuel (s : List Node × Option Descent × Value) =>
      sequence run body fuel s.1 s.2.1 s.2.2) (rest, d, last) m := by
  cases rest with
  | nil => exact .inr ⟨_, fun _ => rfl⟩
  | cons n rest =>
    refine .of_andThen (fun _ => rfl) (hrun n d) fun flow m₁ _ => ?_
    cases flow with
    | normal v => exact .inl ⟨(rest, none, v), m₁, .refl _, fun _ => rfl⟩
    | throw v => exact .inr ⟨_, fun _ => rfl⟩
    | jump l v =>
      dsimp only
      cases placeOf l body with
      | nil => exact .inr ⟨_, fun _ => rfl⟩
      | cons n place => exact .inl ⟨(n :: place, some ⟨l, v⟩, last), m₁, .refl _, fun _ => rfl⟩

theorem rounds_iterates (body : Node) (leave next : Label) (d : Option Descent) (m : Machine ω) :
    Iterates (rounds run body leave next) d m := by
  refine .of_andThen (fun _ => rfl) (hrun body d) fun flow m₁ _ => ?_
  cases flow with
  | normal v => exact .inl ⟨none, m₁, .refl _, fun _ => rfl⟩
  | throw v => exact .inr ⟨_, fun _ => rfl⟩
  | jump l v =>
    dsimp only
    split
    · exact .inr ⟨_, fun _ => rfl⟩
    · split
      · exact .inl ⟨none, m₁, .refl _, fun _ => rfl⟩
      · split
        · exact .inl ⟨some ⟨l, v⟩, m₁, .refl _, fun _ => rfl⟩
        · exact .inr ⟨_, fun _ => rfl⟩

theorem arms_iterates (bodies : List Node) (arm : Option Node) (d : Option Descent)
    (m : Machine ω) :
    Iterates (fun fuel (s : Option Node × Option Descent) => arms run bodies fuel s.1 s.2)
      (arm, d) m := by
  cases arm with
  | none => exact .inr ⟨_, fun _ => rfl⟩
  | some n =>
    refine .of_andThen (fun _ => rfl) (hrun n d) fun flow m₁ _ => ?_
    cases flow with
    | normal v => exact .inr ⟨_, fun _ => rfl⟩
    | throw v => exact .inr ⟨_, fun _ => rfl⟩
    | jump l v =>
      dsimp only
      cases bodies.find? (·.defines l) with
      | none => exact .inr ⟨_, fun _ => rfl⟩
      | some body => exact .inl ⟨(some body, some ⟨l, v⟩), m₁, .refl _, fun _ => rfl⟩

theorem region_iterates (body : Node) (handlers : List (Handler Node)) (cleanup : Option Node)
    (d : Option Descent) (m : Machine ω) :
    Iterates (region run body handlers cleanup) d m := by
  cases start : entrance body cleanup d with
  | handler l => exact .inr ⟨_, fun fuel => by rw [region, start]⟩
  | cleanup n => exact .inr ⟨_, fun fuel => by rw [region, start]⟩
  | body =>
    refine .of_andThen (fun _ => by rw [region, start]) (hrun body d) fun flow m₁ _ => ?_
    -- Between the body and the next iteration there may be a handler, which counts as well.
    have hdispatch := dispatch_counting (fun n d => (hrun n d).counting) handlers flow
    have hbind : ∀ f : Flow → Exec ω Flow, (dispatch run handlers flow >>= f) m₁ =
      EStateM.bind (dispatch run handlers flow) f m₁ := fun _ => rfl
    simp only [hbind, EStateM.bind]
    cases h : dispatch run handlers flow m₁ with
    | error e m₂ => exact .inr ⟨_, fun _ => rfl⟩
    | ok flow' m₂ =>
      cases flow' with
      | normal v => exact .inr ⟨_, fun _ => rfl⟩
      | throw v => exact .inr ⟨_, fun _ => rfl⟩
      | jump l v =>
        dsimp only
        split
        · exact .inl ⟨some ⟨l, v⟩, m₂, hdispatch.ok h, fun _ => rfl⟩
        · exact .inr ⟨_, fun _ => rfl⟩

end Exec

namespace Node

open Exec

/-- With more fuel than steps left, further fuel makes no difference to a node. -/
theorem execWithin_settled (fuel k : Nat) (n : Node) (d : Option Descent) :
    Settled fuel (n.execWithin fuel d : Exec ω Flow) (n.execWithin (fuel + k) d) := by
  induction fuel generalizing n d with
  | zero => exact .zero
  | succ fuel ih =>
    rw [Nat.add_right_comm]
    have hticking := execWithin_ticking (ω := ω) fuel
    refine Settled.tick.andThen_ticking tick_ticking fun _ => ?_
    cases n with
    | nop => exact .pure _
    | eval e => exact .evaluating e.eval_blind fun _ => .pure _
    | assign target value =>
      refine .evaluating value.eval_blind fun v => ?_
      exact fun _ _ => ⟨rfl, nofun⟩
    | block locals body =>
      refine Settled.andThen (fun _ _ => ⟨rfl, nofun⟩) (.modify fun m => .of_eq rfl rfl) fun _ => ?_
      split <;> exact sequence_settled ih hticking _ (Nat.le_refl _) _ _ _ _
    | branch test yes no =>
      cases d with
      | some s =>
        dsimp only
        split <;> exact ih _ _
      | none =>
        refine .evaluating test.eval_blind fun v => ?_
        split
        · exact ih _ _
        · exact ih _ _
        · exact .fail _
    | loop body leave next => exact rounds_settled ih hticking _ _ _ (Nat.le_refl _) _ _
    | label target default => exact .pure _
    | goto target value =>
      cases value with
      | none => exact .pure _
      | some e => exact .evaluating e.eval_blind fun _ => .pure _
    | switch value cases default =>
      cases d with
      | some s => exact arms_settled ih hticking _ (Nat.le_refl _) _ _ _
      | none =>
        exact .evaluating (choice_blind value cases) fun selected =>
          arms_settled ih hticking _ (Nat.le_refl _) _ _ _
    | attempt body handlers cleanup =>
      exact region_settled ih hticking _ _ _ (Nat.le_refl _) _ _
    | throw e => exact .evaluating e.eval_blind fun _ => .pure _
    | rethrow =>
      refine Settled.andThen (x := get) (fun _ _ => ⟨rfl, nofun⟩) (.of_final Spends.refl) fun m => ?_
      split
      · exact .pure _
      · exact .fail _

/-- The execution of a node ends where it has ended with the fuel for it. -/
theorem final_exec (n : Node) (m : Machine ω) :
    final (n.exec m) = final (n.execWithin (m.stepsLeft + 1) none m) := by
  unfold exec stepsLeft
  cases n.execWithin (m.stepLimit - m.steps + 1) none m with
  | ok flow m' => rfl
  | error e m' => cases e <;> rfl

/-- Execution ends, for any tree and in any machine. Fuel for one more step than are left is enough,
from the start of a node and on the way down to a place in it: there is no lack of it, and with more
the outcome is the same. At most one step beyond the limit is counted. And where a row of
statements, the rounds of a loop, the arms of a switch or a guarded region goes on with another
iteration, a step within the limit has been counted. -/
theorem exec_terminates (n : Node) (m : Machine ω) :
    (∀ d k, n.execWithin (m.stepLimit - m.steps + 1 + k) d m =
        n.execWithin (m.stepLimit - m.steps + 1) d m ∧
      ∀ m', n.execWithin (m.stepLimit - m.steps + 1) d m ≠ .error .outOfFuel m') ∧
    (final (n.exec m)).steps ≤ m.steps + (m.stepLimit - m.steps) + 1 ∧
    ∀ size,
      (∀ body rest d last, Iterates (fun fuel (s : List Node × Option Descent × Value) =>
        sequence (execWithin size) body fuel s.1 s.2.1 s.2.2) (rest, d, last) m) ∧
      (∀ body leave next d, Iterates (rounds (execWithin size) body leave next) d m) ∧
      (∀ bodies arm d, Iterates (fun fuel (s : Option Node × Option Descent) =>
        arms (execWithin size) bodies fuel s.1 s.2) (arm, d) m) ∧
      ∀ body handlers cleanup d, Iterates (region (execWithin size) body handlers cleanup) d m := by
  refine ⟨fun d k => execWithin_settled _ k n d m (Nat.lt_succ_self _), ?_, fun size => ?_⟩
  · rw [final_exec]
    exact ((execWithin_ticking _ n none).counting.final m).within
  · have hticking := execWithin_ticking (ω := ω) size
    exact ⟨fun body rest d last => sequence_iterates hticking body rest d last m,
      fun body leave next d => rounds_iterates hticking body leave next d m,
      fun bodies arm d => arms_iterates hticking bodies arm d m,
      fun body handlers cleanup d => region_iterates hticking body handlers cleanup d m⟩

/-- A loop that only goes on is stopped by the step after the limit. -/
example : final ((loop (goto (.internal 1) none) (.internal 0) (.internal 1)).exec
    (.new Host.empty () 6)) = { (Machine.new Host.empty () 6) with steps := 7 } := rfl

end Node

end StructuredFlow
