import StructuredFlow.Proofs.Visits

/-
  The calls that are listed for a node are all executions that it consists of: a runner that agrees
  with the machine on them makes the same of the node (`Node.Calls.complete`). So what is shown of
  every visit of a run is shown of everything that the run executes.
-/

namespace StructuredFlow

variable {ω : Type}

open Outcome

/-- Programs in two parts agree if their first parts do, and their second parts do on what the first
part has given. -/
theorem Outcome.andThen_agree {ε σ α β : Type} {x x' : EStateM ε σ α} {f f' : α → EStateM ε σ β}
    {s : σ} (hx : x' s = x s) (hf : ∀ a s₁, x s = .ok a s₁ → f' a s₁ = f a s₁) :
    (x' >>= f') s = (x >>= f) s := by
  show EStateM.bind x' f' s = EStateM.bind x f s
  unfold EStateM.bind
  rw [hx]
  cases h : x s with
  | ok a s₁ => exact hf a s₁ h
  | error e s₁ => rfl

namespace Exec

variable {run run' : Runner ω}

theorem evaluating_agree {α : Type} {x : Eval ω α} {next next' : α → Exec ω Flow} {m : Machine ω}
    (h : ∀ a m₁, x m = .ok a m₁ → next' a m₁ = next a m₁) :
    evaluating x next' m = evaluating x next m := by
  unfold evaluating
  cases hx : x m with
  | ok a m₁ => exact h a m₁ hx
  | error e m₁ => cases e <;> rfl

theorem sequence_agree {body rest : List Node} {fuel : Nat} {d : Option Descent} {last : Value}
    {m : Machine ω}
    (h : ∀ c, SequenceCalls run body fuel rest d m c → c.result run' = c.result run) :
    sequence run' body fuel rest d last m = sequence run body fuel rest d last m := by
  induction fuel generalizing rest d last m with
  | zero => cases rest <;> rfl
  | succ fuel ih =>
    cases rest with
    | nil => rfl
    | cons n rest =>
      refine andThen_agree (h _ .head) fun flow m₁ hn => ?_
      cases flow with
      | normal v => exact ih fun c hc => h c (.next hn hc)
      | throw v => rfl
      | jump l v =>
        dsimp only
        cases hp : placeOf l body with
        | nil => rfl
        | cons p place =>
          refine ih fun c hc => h c (.again hn ?_)
          rwa [hp]

theorem rounds_agree {body : Node} {leave next : Label} {fuel : Nat} {d : Option Descent}
    {m : Machine ω} (h : ∀ c, RoundsCalls run body leave next fuel d m c →
      c.result run' = c.result run) :
    rounds run' body leave next fuel d m = rounds run body leave next fuel d m := by
  induction fuel generalizing d m with
  | zero => rfl
  | succ fuel ih =>
    refine andThen_agree (h _ .head) fun flow m₁ hbody => ?_
    cases flow with
    | normal v => exact ih fun c hc => h c (.next hbody hc)
    | throw v => rfl
    | jump l v =>
      dsimp only
      split
      · rfl
      next hleave =>
        split
        next hnext => exact ih fun c hc => h c (.continued hbody hleave hnext hc)
        next hnext =>
          split
          next hinside => exact ih fun c hc => h c (.again hbody hleave hnext hinside hc)
          next => rfl

theorem arms_agree {bodies : List Node} {fuel : Nat} {first : Option Node} {d : Option Descent}
    {m : Machine ω}
    (h : ∀ c, ArmsCalls run bodies fuel first d m c → c.result run' = c.result run) :
    arms run' bodies fuel first d m = arms run bodies fuel first d m := by
  induction fuel generalizing first d m with
  | zero => cases first <;> rfl
  | succ fuel ih =>
    cases first with
    | none => rfl
    | some n =>
      refine andThen_agree (h _ .head) fun flow m₁ hn => ?_
      cases flow with
      | normal v => rfl
      | throw v => rfl
      | jump l v =>
        dsimp only
        cases hp : bodies.find? (·.defines l) with
        | none => rfl
        | some n' =>
          refine ih fun c hc => h c (.again hn ?_)
          rwa [hp]

theorem dispatch_agree {handlers : List (Handler Node)} {flow : Flow} {m : Machine ω}
    (h : ∀ hr v, flow = .throw v → handlers.find? (v.isInstanceOf ·.kind) = some hr →
      run' hr.body none (hr.enter v m) = run hr.body none (hr.enter v m)) :
    dispatch run' handlers flow m = dispatch run handlers flow m := by
  cases flow with
  | normal v => rfl
  | jump l v => rfl
  | throw v =>
    unfold dispatch
    dsimp only
    cases hr : handlers.find? (v.isInstanceOf ·.kind) with
    | none => rfl
    | some hd =>
      show handle run' hd v m = handle run hd v m
      rw [handle_eq, handle_eq, h hd v rfl hr]

theorem cleaning_agree {cleanup : Option Node} {pending : Flow} {m : Machine ω}
    (h : ∀ n, cleanup = some n → run' n none m = run n none m) :
    cleaning run' cleanup pending m = cleaning run cleanup pending m := by
  cases cleanup with
  | none => rfl
  | some n => exact andThen_agree (h n rfl) fun _ _ _ => rfl

theorem region_agree {body : Node} {handlers : List (Handler Node)} {cleanup : Option Node}
    {fuel : Nat} {d : Option Descent} {m : Machine ω}
    (h : ∀ entered c, RegionCalls run body handlers cleanup fuel d m entered c →
      c.result run' = c.result run) :
    region run' body handlers cleanup fuel d m = region run body handlers cleanup fuel d m := by
  induction fuel generalizing d m with
  | zero => rfl
  | succ fuel ih =>
    unfold region
    cases start : entrance body cleanup d with
    | handler l => rfl
    | cleanup n => exact h none _ (.entered start)
    | body =>
      refine andThen_agree (h none _ (.body start)) fun flow m₁ hbody => ?_
      have hdispatch : dispatch run' handlers flow m₁ = dispatch run handlers flow m₁ := by
        refine dispatch_agree fun hr v hflow hfound => ?_
        subst hflow
        exact h _ _ (.handler start hbody hfound)
      refine andThen_agree hdispatch fun flow' m₂ hd => ?_
      have hclean : (∀ l v, flow' = .jump l v → regionDefines l body handlers cleanup = false) →
          cleaning run' cleanup flow' m₂ = cleaning run cleanup flow' m₂ := fun hleaves =>
        cleaning_agree fun n hn => h none _ (.cleaning start hbody hd hleaves hn)
      cases flow' with
      | normal v =>
        refine hclean fun l v' hl => ?_
        cases hl
      | throw v =>
        refine hclean fun l v' hl => ?_
        cases hl
      | jump l v =>
        dsimp only
        split
        next hinside =>
          exact ih fun entered c hc => h entered c (.again start hbody hd hinside hc)
        next hinside =>
          refine hclean fun l' v' hl => ?_
          cases hl
          exact Bool.eq_false_iff.mpr hinside

end Exec

namespace Node

open Exec

/-- A runner that agrees on the calls of a node makes the same of the node. -/
theorem Calls.complete {run : Runner ω} {fuel : Nat} {n : Node} {d : Option Descent}
    {m : Machine ω} (h : ∀ entered c, Calls (fuel + 1) n d m entered c →
      c.result run = c.result (execWithin fuel)) :
    step run fuel n d m = n.execWithin (fuel + 1) d m := by
  refine andThen_agree rfl fun _ m₁ ticked => ?_
  cases n with
  | block locals body =>
    refine andThen_agree rfl fun _ m₂ hdeclare => ?_
    obtain rfl := modify_ok.mp hdeclare
    cases d with
    | none => exact sequence_agree fun c hc => h none c (.block ticked hc)
    | some s => exact sequence_agree fun c hc => h none c (.block ticked hc)
  | branch test yes no =>
    cases d with
    | some s =>
      have hsought := h none _ (.sought ticked)
      dsimp only
      split
      next hyes => simpa only [Call.result, hyes, if_true] using hsought
      next hno => simpa only [Call.result, hno, if_false, Bool.false_eq_true] using hsought
    | none =>
      refine evaluating_agree fun v m₂ hv => ?_
      split
      · exact h none _ (.tested ticked hv)
      · exact h none _ (.tested ticked hv)
      · rfl
  | loop body leave next => exact rounds_agree fun c hc => h none c (.loop ticked hc)
  | goto target value => cases value <;> rfl
  | switch value arms default =>
    cases d with
    | some s => exact arms_agree fun c hc => h none c (.armSought ticked hc)
    | none =>
      refine evaluating_agree fun found m₂ hfound => ?_
      exact arms_agree fun c hc => h none c (.armSelected ticked hfound hc)
  | attempt body handlers cleanup =>
    exact region_agree fun entered c hc => h entered c (.attempt ticked hc)
  | _ => rfl

end Node

end StructuredFlow
