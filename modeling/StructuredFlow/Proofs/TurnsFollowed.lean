import StructuredFlow.Proofs.Metering
import StructuredFlow.Proofs.Runs
import StructuredFlow.Proofs.Turns

/-
  Limited execution follows the turns. If it is not cut short by the step limit or by a lack of
  fuel, it comes out as the turns say, and it counts as many steps as they take; if it is cut
  short, the turns take more than was left (`Node.execWithin_follows`). So what a program gives
  with enough steps is what its turns come to (`Artifact.yields_iff`).
-/

namespace StructuredFlow

variable {ω : Type}

open Exec Outcome

namespace Turn

/-- The outcome of a limited execution that comes to a report, with the meter at the end. -/
def limited (r : Report ω) (steps limit : Nat) : EStateM.Result Halt (Machine ω) Flow :=
  match r with
  | .ok flow m => .ok flow (m.metered steps limit)
  | .error e m => .error (.failed e) (m.metered steps limit)

/-- An execution is cut short. -/
def Cut (limit : Nat) (x : EStateM.Result Halt (Machine ω) Flow) : Prop :=
  ∃ e m, x = .error e m ∧ (e = .outOfFuel ∨ e = .failed (.stepLimit limit))

/-- The outcome of a limited execution is what the turn comes to, in as many steps; or it is cut
short, and the turn takes more steps than there is fuel or than the limit has left. -/
def Follows (fuel steps limit : Nat) (t : Turn ω) (x : EStateM.Result Halt (Machine ω) Flow) :
    Prop :=
  (∃ k r, t.Ends k r ∧ steps + k ≤ limit ∧ x = limited r (steps + k) limit) ∨
    (Cut limit x ∧ ∀ k r, t.Ends k r → fuel ≤ k ∨ limit < steps + k)

/-- The outcomes of calls follow them. -/
def Followed (run : Runner ω) (fuel limit : Nat) : Prop :=
  ∀ c steps, Follows fuel steps limit (.tail c)
    (run c.node c.descent (c.machine.metered steps limit))

variable {fuel size steps limit : Nat} {x y : EStateM.Result Halt (Machine ω) Flow}
  {c : Call ω} {w : Waiting} {t : Turn ω} {run : Runner ω}

namespace Follows

theorem done (h : steps ≤ limit) (r : Report ω) :
    Follows fuel steps limit (.done r) (limited r steps limit) :=
  .inl ⟨0, r, .done, h, rfl⟩

theorem mono (h : Follows fuel steps limit t x) {fuel' : Nat} (hle : fuel' ≤ fuel) :
    Follows fuel' steps limit t x :=
  h.imp_right fun ⟨hcut, hlong⟩ =>
    ⟨hcut, fun k r hk => (hlong k r hk).imp_left (Nat.le_trans hle)⟩

theorem tail (h : Follows fuel (steps + 1) limit c.begin x) :
    Follows (fuel + 1) steps limit (.tail c) x := by
  rcases h with ⟨k, r, hends, hle, rfl⟩ | ⟨hcut, hlong⟩
  · have hsum : steps + 1 + k = steps + (k + 1) := by omega
    exact .inl ⟨k + 1, r, .tail hends, hsum ▸ hle, by rw [hsum]⟩
  · refine .inr ⟨hcut, fun k r hk => ?_⟩
    cases hk with
    | tail inner =>
      have := hlong _ _ inner
      omega

/-- A call, and what is made of its outcome. -/
theorem call (hcall : Follows size steps limit (.tail c) x) (hsize : fuel < size)
    (hcut : Cut limit x → Cut limit y)
    (hlater : ∀ s r, x = limited r s limit → s ≤ limit → Follows fuel s limit (w.resume r) y) :
    Follows (fuel + 1) steps limit (.call c w) y := by
  rcases hcall with ⟨_, r, ⟨⟩ | ⟨inner⟩ | ⟨_, _⟩, hle, hx⟩ | ⟨hx, hlong⟩
  · rename_i k
    rcases hlater _ r hx hle with ⟨k', r', later, hle', rfl⟩ | ⟨hy, hlong⟩
    · have hsum : steps + (k + 1) + k' = steps + (k + 1 + k') := Nat.add_assoc ..
      exact .inl ⟨_, r', .call inner later, hsum ▸ hle', by rw [hsum]⟩
    · refine .inr ⟨hy, fun K R hK => ?_⟩
      cases hK with
      | call inner' later' =>
        obtain ⟨rfl, rfl⟩ := inner.unique inner'
        have := hlong _ _ later'
        omega
  · refine .inr ⟨hcut hx, fun K R hK => ?_⟩
    cases hK with
    | call inner' later' =>
      have := hlong _ _ (.tail inner')
      omega

end Follows

/-- A call in a program that goes on with its flow. -/
theorem Follows.andThen {f : Flow → Exec ω Flow} (hrun : Followed run size limit)
    (hsize : fuel < size) (herror : ∀ e (m : Machine ω), w.resume (.error e m) = .done (.error e m))
    (hflow : ∀ s flow m, s ≤ limit →
      Follows fuel s limit (w.resume (.ok flow m)) (f flow (m.metered s limit))) :
    Follows (fuel + 1) steps limit (.call c w)
      ((run c.node c.descent >>= f) (c.machine.metered steps limit)) := by
  refine (hrun c steps).call hsize ?_ fun s r hx hs => ?_
  · rintro ⟨e, m, hx, he⟩
    exact ⟨e, m, andThen_error.mpr (.inl hx), he⟩
  · show Follows fuel s limit (w.resume r) (EStateM.bind _ _ _)
    unfold EStateM.bind
    rw [hx]
    cases r with
    | ok flow m => exact hflow s flow m hs
    | error e m =>
      rw [herror]
      exact .done hs _

/-- An evaluation, and what is made of its result. -/
theorem Follows.evaluating {α : Type} {x : Eval ω α} {next : α → Exec ω Flow}
    {next' : α → Machine ω → Turn ω} {m : Machine ω} (hx : Blind x) (hs : steps ≤ limit)
    (hnext : ∀ a m, Follows fuel steps limit (next' a m) (next a (m.metered steps limit))) :
    Follows fuel steps limit (.reading (x m) next')
      (Exec.evaluating x next (m.metered steps limit)) := by
  unfold Exec.evaluating
  rw [hx]
  cases x m with
  | ok a m₁ => exact hnext a m₁
  | error e m₁ => cases e <;> exact .done hs _

section Loops

variable (hrun : Followed run size limit)
include hrun

theorem sequence_follows {body rest : List Node} (hsize : fuel ≤ size) (hs : steps ≤ limit)
    (d : Option Descent) (last last' : Value) (m : Machine ω) (hlast : rest = [] → last' = last) :
    Follows fuel steps limit (.row body rest d last m)
      (sequence run body fuel rest d last' (m.metered steps limit)) := by
  induction fuel generalizing rest d last last' m steps with
  | zero =>
    cases rest with
    | nil =>
      rw [hlast rfl]
      exact .done hs _
    | cons n rest => exact .inr ⟨⟨_, _, rfl, .inl rfl⟩, fun k r _ => .inl (Nat.zero_le k)⟩
  | succ fuel ih =>
    cases rest with
    | nil =>
      rw [hlast rfl]
      exact .done hs _
    | cons n rest =>
      refine .andThen (c := ⟨n, d, m⟩) hrun hsize (fun _ _ => rfl) fun s flow m hs => ?_
      cases flow with
      | normal v => exact ih (Nat.le_of_succ_le hsize) hs none v v m fun _ => rfl
      | throw v => exact .done hs _
      | jump l v =>
        dsimp only [Waiting.resume]
        cases hplace : placeOf l body with
        | nil => exact .done hs _
        | cons n place => exact ih (Nat.le_of_succ_le hsize) hs _ _ _ m nofun

theorem rounds_follows (body : Node) (leave next : Label) (hsize : fuel ≤ size)
    (d : Option Descent) (m : Machine ω) :
    Follows fuel steps limit (.call ⟨body, d, m⟩ (.rounds body leave next))
      (rounds run body leave next fuel d (m.metered steps limit)) := by
  induction fuel generalizing d m steps with
  | zero => exact .inr ⟨⟨_, _, rfl, .inl rfl⟩, fun k r _ => .inl (Nat.zero_le k)⟩
  | succ fuel ih =>
    refine .andThen (c := ⟨body, d, m⟩) hrun hsize (fun _ _ => rfl) fun s flow m hs => ?_
    have hsize := Nat.le_of_succ_le hsize
    cases flow with
    | normal v => exact ih hsize none m
    | throw v => exact .done hs _
    | jump l v =>
      dsimp only [Waiting.resume]
      split
      · exact .done hs _
      · split
        · exact ih hsize none m
        · split
          · exact ih hsize _ m
          · exact .done hs _

theorem arms_follows (bodies : List Node) (hsize : fuel ≤ size) (hs : steps ≤ limit)
    (body : Option Node) (d : Option Descent) (m : Machine ω) :
    Follows fuel steps limit (.arm bodies body d m)
      (arms run bodies fuel body d (m.metered steps limit)) := by
  induction fuel generalizing body d m steps with
  | zero =>
    cases body with
    | none => exact .done hs _
    | some body => exact .inr ⟨⟨_, _, rfl, .inl rfl⟩, fun k r _ => .inl (Nat.zero_le k)⟩
  | succ fuel ih =>
    cases body with
    | none => exact .done hs _
    | some body =>
      refine .andThen (c := ⟨body, d, m⟩) hrun hsize (fun _ _ => rfl) fun s flow m hs => ?_
      cases flow with
      | normal v => exact .done hs _
      | throw v => exact .done hs _
      | jump l v =>
        dsimp only [Waiting.resume]
        cases bodies.find? (·.defines l) with
        | none => exact .done hs _
        | some body => exact ih (Nat.le_of_succ_le hsize) hs _ _ m

theorem cleaning_follows (cleanup : Option Node) (hsize : fuel < size) (hs : steps ≤ limit)
    (pending : Flow) (m : Machine ω) :
    Follows fuel steps limit (.clean cleanup pending m)
      (cleaning run cleanup pending (m.metered steps limit)) := by
  cases cleanup with
  | none => exact .done hs _
  | some n =>
    refine Follows.mono ?_ (Nat.le_succ fuel)
    refine .andThen (c := ⟨n, none, m⟩) hrun hsize (fun _ _ => rfl) fun s flow m hs => ?_
    cases flow <;> exact .done hs _

/-- A handler gives its exception back on every way out, and then the region is left. -/
theorem handle_follows {f : Flow → Exec ω Flow} {body : Node} {handlers : List (Handler Node)}
    {cleanup : Option Node} (hsize : fuel < size)
    (hleave : ∀ s flow m, s ≤ limit → Follows fuel s limit
      (.leaveRegion body handlers cleanup flow m) (f flow (m.metered s limit)))
    (h : Handler Node) (exception : Value) (m : Machine ω) :
    Follows (fuel + 1) steps limit
      (.call ⟨h.body, none, h.enter exception m⟩ (.handling body handlers cleanup))
      ((handle run h exception >>= f) (m.metered steps limit)) := by
  have henter : h.enter exception (m.metered steps limit) =
      (h.enter exception m).metered steps limit := by
    unfold Handler.enter
    split <;> rfl
  have hcall := hrun ⟨h.body, none, h.enter exception m⟩ steps
  show Follows _ _ _ _ (EStateM.bind _ _ _)
  unfold EStateM.bind
  rw [handle_eq, henter]
  refine hcall.call hsize ?_ fun s r hx hs => ?_
  · rintro ⟨e, m', hx, he⟩
    dsimp only at hx
    rw [hx]
    exact ⟨e, _, rfl, he⟩
  · dsimp only at hx
    rw [hx]
    cases r with
    | ok flow m' => exact hleave s flow m'.endHandling hs
    | error e m' => exact .done hs (.error e m'.endHandling)

theorem region_follows (body : Node) (handlers : List (Handler Node)) (cleanup : Option Node)
    (hsize : fuel ≤ size) (hs : steps ≤ limit) (d : Option Descent) (m : Machine ω) :
    Follows fuel steps limit (.region body handlers cleanup d m)
      (Exec.region run body handlers cleanup fuel d (m.metered steps limit)) := by
  induction fuel generalizing d m steps with
  | zero => exact .inr ⟨⟨_, _, rfl, .inl rfl⟩, fun k r _ => .inl (Nat.zero_le k)⟩
  | succ fuel ih =>
    have hclean : ∀ s flow (m : Machine ω), s ≤ limit →
        Follows fuel s limit (.clean cleanup flow m)
          (cleaning run cleanup flow (m.metered s limit)) :=
      fun s flow m hs => cleaning_follows hrun cleanup hsize hs flow m
    have hjump : ∀ s l v (m : Machine ω), s ≤ limit →
        Follows fuel s limit (.leaveRegion body handlers cleanup (.jump l v) m)
          ((if regionDefines l body handlers cleanup then
              Exec.region run body handlers cleanup fuel (some ⟨l, v⟩)
            else cleaning run cleanup (.jump l v)) (m.metered s limit)) := by
      intro s l v m hs
      dsimp only [leaveRegion]
      split
      · exact ih (Nat.le_of_succ_le hsize) hs _ m
      · exact hclean s _ m hs
    unfold region Exec.region
    cases entrance body cleanup d with
    | handler l => exact .done hs _
    | cleanup n => exact (hrun ⟨n, d, m⟩ steps).mono hsize
    | body =>
      refine .andThen (c := ⟨body, d, m⟩) hrun hsize (fun _ _ => rfl) fun s flow m hs => ?_
      cases flow with
      | normal v => exact hclean s (.normal v) m hs
      | jump l v => exact hjump s l v m hs
      | throw v =>
        dsimp only [dispatch, Waiting.resume]
        cases handlers.find? (v.isInstanceOf ·.kind) with
        | none => exact hclean s (.throw v) m hs
        | some h =>
          refine (handle_follows hrun hsize (fun s flow m hs => ?_) h v m).mono (Nat.le_succ fuel)
          cases flow with
          | normal v => exact hclean s (.normal v) m hs
          | throw v => exact hclean s (.throw v) m hs
          | jump l v => exact hjump s l v m hs

end Loops

end Turn

open Turn

theorem Exec.tick_metered (m : Machine ω) (steps limit : Nat) :
    tick (m.metered steps limit) =
      if limit < steps + 1 then
        .error (.failed (.stepLimit limit)) (m.metered (steps + 1) limit)
      else .ok () (m.metered (steps + 1) limit) := rfl

/-- What a step goes on with follows the call that the step is for. -/
theorem Node.step_follows {run : Runner ω} {fuel limit : Nat} (hrun : Followed run fuel limit)
    (c : Call ω) (steps : Nat) :
    Follows (fuel + 1) steps limit (.tail c)
      (c.node.step run fuel c.descent (c.machine.metered steps limit)) := by
  obtain ⟨n, d, m⟩ := c
  show Follows _ _ _ _ (EStateM.bind tick _ _)
  unfold EStateM.bind
  rw [tick_metered]
  by_cases hs : limit < steps + 1
  · rw [if_pos hs]
    refine .inr ⟨⟨_, _, rfl, .inr rfl⟩, fun k r hk => .inr ?_⟩
    cases hk with
    | tail inner => omega
  rw [if_neg hs]
  have hs : steps + 1 ≤ limit := Nat.le_of_not_lt hs
  refine .tail ?_
  cases n with
  | nop => exact .done hs _
  | eval e => exact .evaluating e.eval_blind hs fun v m => .done hs (.ok (.normal v) m)
  | assign target value =>
    exact .evaluating value.eval_blind hs fun v m => .done hs (.ok (.normal .void) (m.assign _ v))
  | block locals body =>
    cases d with
    | none => exact sequence_follows hrun (Nat.le_refl _) hs _ _ _ _ fun _ => rfl
    | some s => exact sequence_follows hrun (Nat.le_refl _) hs _ _ _ _ fun _ => rfl
  | branch test yes no =>
    cases d with
    | some s =>
      dsimp only [Call.begin]
      split
      · exact hrun ⟨yes, some s, m⟩ _
      · exact hrun ⟨no, some s, m⟩ _
    | none =>
      refine .evaluating test.eval_blind hs fun v m => ?_
      cases v with
      | bool holds =>
        cases holds with
        | true => exact hrun ⟨yes, none, m⟩ _
        | false => exact hrun ⟨no, none, m⟩ _
      | _ => exact .done hs (.error (.typeError _) m)
  | loop body leave next => exact rounds_follows hrun body leave next (Nat.le_refl _) d m
  | label target default => exact .done hs (.ok (.normal (labelValue target default d)) m)
  | goto target value =>
    cases value with
    | none => exact .done hs (.ok (.jump target.id none) m)
    | some e =>
      exact .evaluating e.eval_blind hs fun v m => .done hs (.ok (.jump target.id (some v)) m)
  | switch value cases default =>
    cases d with
    | some s => exact arms_follows hrun _ (Nat.le_refl _) hs _ _ m
    | none =>
      exact .evaluating (choice_blind value cases) hs fun found m =>
        arms_follows hrun _ (Nat.le_refl _) hs _ _ m
  | attempt body handlers cleanup =>
    exact region_follows hrun body handlers cleanup (Nat.le_refl _) hs d m
  | throw e => exact .evaluating e.eval_blind hs fun v m => .done hs (.ok (.throw v) m)
  | rethrow =>
    obtain ⟨env, heap, host, world, handling, disposeLog⟩ := m
    cases handling with
    | cons v rest => exact .done hs _
    | nil => exact .done hs _

/-- Every limited execution of a node follows the call. -/
theorem Node.execWithin_follows (fuel limit : Nat) :
    Followed (execWithin fuel : Runner ω) fuel limit := by
  induction fuel with
  | zero => exact fun c steps => .inr ⟨⟨_, _, rfl, .inl rfl⟩, fun k r _ => .inl (Nat.zero_le k)⟩
  | succ fuel ih => exact step_follows ih

/-- What a call comes to, an execution with enough fuel and steps comes to. -/
theorem Turn.Ends.execWithin_eq {c : Call ω} {k : Nat} {r : Report ω} (h : c.begin.Ends k r) :
    c.node.execWithin (k + 2) c.descent (c.machine.metered 0 (k + 1)) =
      limited r (k + 1) (k + 1) := by
  rcases Node.execWithin_follows (k + 2) (k + 1) c 0 with ⟨k', r', hends, -, hx⟩ | ⟨-, hlong⟩
  · obtain ⟨rfl, rfl⟩ := (Ends.tail h).unique hends
    rw [hx, Nat.zero_add]
  · have := hlong _ _ (.tail h)
    omega

/-- Variables that have values when a call begins have values when it has ended. -/
theorem Turn.Ends.grows {c : Call ω} {k : Nat} {r : Report ω} (h : c.begin.Ends k r) :
    c.machine.env.Grows (final r).env := by
  have hkept := Node.execWithin_keeping (k + 2) c.node c.descent (c.machine.metered 0 (k + 1))
  rw [h.execWithin_eq] at hkept
  cases r <;> exact hkept.env

theorem Node.exec_metered (n : Node) (m : Machine ω) (limit : Nat) :
    n.exec (m.metered 0 limit) =
      match n.execWithin (limit + 1) none (m.metered 0 limit) with
      | .ok flow m => .ok flow m
      | .error (.failed e) m => .error e m
      | .error .outOfFuel m => .error (.stepLimit m.stepLimit) m := rfl

/-- With a limit, the execution of a node from its start comes to what the turns come to, or to the
limit. -/
theorem Node.exec_follows (n : Node) (m : Machine ω) (limit : Nat) :
    (∃ k r, (tail ⟨n, none, m⟩).Ends k r ∧ k ≤ limit ∧
        n.exec (m.metered 0 limit) = mapState (·.metered k limit) r) ∨
      ((∃ m', n.exec (m.metered 0 limit) = .error (.stepLimit limit) m') ∧
        ∀ k r, (tail ⟨n, none, m⟩).Ends k r → limit < k) := by
  rw [exec_metered]
  rcases execWithin_follows (limit + 1) limit ⟨n, none, m⟩ 0 with
    ⟨k, r, hends, hle, hx⟩ | ⟨⟨e, m', hx, he⟩, hlong⟩
  · rw [Nat.zero_add] at hle
    refine .inl ⟨k, r, hends, hle, ?_⟩
    dsimp only at hx
    rw [hx, Nat.zero_add]
    cases r <;> rfl
  · refine .inr ⟨?_, fun k r hk => ?_⟩
    · have hlimit : m'.stepLimit = limit := ((execWithin_keeping _ n none).error hx).stepLimit
      dsimp only at hx
      rw [hx]
      rcases he with rfl | rfl
      · exact ⟨m', by rw [← hlimit]⟩
      · exact ⟨m', rfl⟩
    · have := hlong k r hk
      omega

/-! ## Runs with enough steps -/

namespace Artifact

variable {a : Artifact} {args : List Value} {m : Machine ω}
  {r : EStateM.Result EvalError (Machine ω) Value}

/-- What the program gives with enough steps: from some limit on, its run has this outcome, apart
from the meter. -/
def Yields (a : Artifact) (args : List Value) (m : Machine ω)
    (r : EStateM.Result EvalError (Machine ω) Value) : Prop :=
  ∃ least, ∀ limit ≥ least,
    mapState (·.metered 0 0) (a.run args { m with stepLimit := limit }) = r

/-- What the program gives when its body has come to a report. -/
def conclude (a : Artifact) : Report ω → EStateM.Result EvalError (Machine ω) Value
  | .ok flow m =>
    match a.result flow with
    | .ok v => .ok v m
    | .error e => .error e m
  | .error e m => .error e m

theorem prepare_limit (m : Machine ω) (params : List Symbol) (args : List Value) (limit : Nat) :
    Machine.prepare { m with stepLimit := limit } params args =
      (m.prepare params args).metered 0 limit := by
  have hassign : ∀ (entries : List (Symbol × Value)) (m : Machine ω),
      entries.foldl (fun m p => m.assign p.1 p.2) (m.metered 0 limit) =
        (entries.foldl (fun m p => m.assign p.1 p.2) m).metered 0 limit := by
    intro entries
    induction entries with
    | nil => exact fun _ => rfl
    | cons p entries ih => exact fun m => ih (m.assign p.1 p.2)
  exact hassign _ m.restart

theorem run_metered (hlen : args.length = a.params.length) (limit : Nat) :
    a.run args { m with stepLimit := limit } =
      match a.body.exec ((m.prepare a.params args).metered 0 limit) with
      | .ok flow m => (MonadExcept.ofExcept (a.result flow) : Eval ω Value) m
      | .error e m => .error e m := by
  rw [run_of_length hlen, prepare_limit]
  show EStateM.bind _ _ _ = _
  unfold EStateM.bind
  cases a.body.exec ((m.prepare a.params args).metered 0 limit) <;> rfl

/-- With a limit, a run gives what its body comes to, with the steps counted, or stops for the
limit. -/
theorem run_limited (hlen : args.length = a.params.length) (limit : Nat) :
    (∃ k report, (tail (a.entry args m)).Ends k report ∧ k ≤ limit ∧
        a.run args { m with stepLimit := limit } =
          mapState (·.metered k limit) (a.conclude report)) ∨
      ((∃ m', a.run args { m with stepLimit := limit } = .error (.stepLimit limit) m') ∧
        ∀ k report, (tail (a.entry args m)).Ends k report → limit < k) := by
  rw [run_metered hlen]
  rcases a.body.exec_follows (m.prepare a.params args) limit with
    ⟨k, report, hends, hle, hx⟩ | ⟨⟨m', hx⟩, hlong⟩
  · refine .inl ⟨k, report, hends, hle, ?_⟩
    rw [hx]
    cases report with
    | error e m₁ => rfl
    | ok flow m₁ =>
      dsimp only [mapState, conclude]
      cases a.result flow <;> rfl
  · rw [hx]
    exact .inr ⟨⟨m', rfl⟩, hlong⟩

/-- With a limit, a run gives what its body comes to, or stops for the limit. -/
theorem run_follows (hlen : args.length = a.params.length) (limit : Nat) :
    (∃ k report, (tail (a.entry args m)).Ends k report ∧
        mapState (·.metered 0 0) (a.run args { m with stepLimit := limit }) =
          mapState (·.metered 0 0) (a.conclude report)) ∨
      ((∃ m', a.run args { m with stepLimit := limit } = .error (.stepLimit limit) m') ∧
        ∀ k report, (tail (a.entry args m)).Ends k report → limit < k) := by
  refine (run_limited hlen limit).imp_left fun ⟨k, report, hends, _, hrun⟩ => ?_
  refine ⟨k, report, hends, ?_⟩
  rw [hrun]
  cases a.conclude report <;> rfl

/-- What a program gives with enough steps is what its body comes to. -/
theorem yields_iff (hlen : args.length = a.params.length) :
    a.Yields args m r ↔ ∃ k report, (tail (a.entry args m)).Ends k report ∧
      mapState (·.metered 0 0) (a.conclude report) = r := by
  constructor
  · rintro ⟨least, hyields⟩
    rcases run_follows (m := m) hlen least with ⟨k, report, hends, hrun⟩ | ⟨⟨m₁, h₁⟩, -⟩
    · exact ⟨k, report, hends, hrun.symm.trans (hyields least (Nat.le_refl _))⟩
    rcases run_follows (m := m) hlen (least + 1) with ⟨k, report, hends, hrun⟩ | ⟨⟨m₂, h₂⟩, -⟩
    · exact ⟨k, report, hends, hrun.symm.trans (hyields _ (Nat.le_succ _))⟩
    · have h := (hyields least (Nat.le_refl _)).trans (hyields _ (Nat.le_succ _)).symm
      rw [h₁, h₂] at h
      cases h
  · rintro ⟨k, report, hends, rfl⟩
    refine ⟨k, fun limit hlimit => ?_⟩
    rcases run_follows (m := m) hlen limit with ⟨k', report', hends', hrun⟩ | ⟨-, hlong⟩
    · obtain ⟨-, rfl⟩ := hends.unique hends'
      exact hrun
    · exact absurd (hlong k report hends) (Nat.not_lt.mpr hlimit)

/-- With the wrong number of arguments a program gives just that. -/
theorem yields_of_length_ne (hlen : args.length ≠ a.params.length) :
    a.Yields args m r ↔
      .error (.arityMismatch a.params.length args.length) (m.metered 0 0) = r := by
  unfold Yields
  simp only [run_of_length_ne hlen]
  exact ⟨fun ⟨least, h⟩ => h least (Nat.le_refl _), fun h => ⟨0, fun _ _ => h⟩⟩

end Artifact

end StructuredFlow
