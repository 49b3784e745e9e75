import StructuredFlow.Proofs.Visits

/-
  Properties of machines that an execution upholds. Evaluations, the count of steps and the exceptions
  being handled leave such a property alone (`Upkeep`); what is left is what a node does to variables
  by itself: an assignment, the locals of a block, and the variable of a handler (`Node.Upholds`). If
  every visited node upholds the property where it is visited, then all visits start from machines
  that have it (`Node.Visits.good`), and so does what comes after the whole (`Node.good`).
-/

namespace StructuredFlow

variable {ω : Type}

open Outcome Machine

/-- Where a program in two parts ends, if the first part ends well and the second one goes on so. -/
theorem Outcome.good_andThen {ε σ α β : Type} {Good : σ → Prop} {x : EStateM ε σ α}
    {f : α → EStateM ε σ β} {s : σ} (hx : Good (final (x s)))
    (hf : ∀ a s₁, x s = .ok a s₁ → Good s₁ → Good (final (f a s₁))) :
    Good (final ((x >>= f) s)) := by
  show Good (final (EStateM.bind x f s))
  unfold EStateM.bind
  cases h : x s with
  | ok a s₁ =>
    rw [h] at hx
    exact hf a s₁ h hx
  | error e s₁ =>
    rw [h] at hx
    exact hx

theorem Outcome.good_of_ok {ε σ α : Type} {Good : σ → Prop} {r : EStateM.Result ε σ α}
    (h : Good (final r)) {a : α} {s : σ} (hr : r = .ok a s) : Good s := by
  subst hr
  exact h

/-- The property does not speak of what is done by evaluations, by the count of steps and by the
handling of exceptions. -/
structure Upkeep (Good : Machine ω → Prop) : Prop where
  evaluated : ∀ {m m'}, Good m → m.Evaluated m' → Good m'
  steps : ∀ {m} n, Good m → Good { m with steps := n }
  handling : ∀ {m} vs, Good m → Good { m with handling := vs }

variable {Good : Machine ω → Prop}

/-- What a node does to variables by itself upholds the property. -/
structure Node.Upholds (Good : Machine ω → Prop) (n : Node) (m : Machine ω) : Prop where
  assign : ∀ target value m₁ v m₂, n = .assign target value → Exec.tick m = .ok () m₁ →
    value.eval m₁ = .ok v m₂ → Good m₂ → Good (m₂.assign target v)
  declare : ∀ locals body m', n = .block locals body → Good m' → Good (m'.declare locals)
  catches : ∀ h ∈ n.handlers, ∀ s, h.binding = some s → ∀ v m', v.isInstanceOf h.kind = true →
    Good m' → Good (m'.assign s v)

namespace Exec

variable {run : Runner ω} {fuel : Nat} {d : Option Descent} {m : Machine ω} {c : Call ω}

theorem tick_good (up : Upkeep Good) (hm : Good m) : Good (final (tick m)) := by
  unfold tick
  dsimp only
  split <;> exact up.steps _ hm

theorem evaluating_good {α : Type} {x : Eval ω α} {next : α → Exec ω Flow} (up : Upkeep Good)
    (hx : Eval.Quiet x) (hm : Good m)
    (hnext : ∀ a m₁, x m = .ok a m₁ → Good m₁ → Good (final (next a m₁))) :
    Good (final (evaluating x next m)) := by
  unfold evaluating
  cases h : x m with
  | ok a m₁ => exact hnext a m₁ h (up.evaluated hm (hx.ok h))
  | error e m₁ =>
    have hm₁ := up.evaluated hm (hx.error h)
    cases e <;> exact hm₁

/-! ## Statements in a row -/

section

variable {body rest : List Node} {last : Value}

theorem SequenceCalls.good (hc : SequenceCalls run body fuel rest d m c) (hm : Good m)
    (h : ∀ c, SequenceCalls run body fuel rest d m c → Good c.machine →
      Good (final (c.result run))) : Good c.machine := by
  induction hc with
  | head => exact hm
  | next done _ ih =>
    exact ih (good_of_ok (h _ .head hm) done) fun c hc => h c (.next done hc)
  | again jumped _ ih =>
    exact ih (good_of_ok (h _ .head hm) jumped) fun c hc => h c (.again jumped hc)

theorem sequence_good (hm : Good m)
    (h : ∀ c, SequenceCalls run body fuel rest d m c → Good c.machine →
      Good (final (c.result run))) : Good (final (sequence run body fuel rest d last m)) := by
  induction fuel generalizing rest d last m with
  | zero => cases rest <;> exact hm
  | succ fuel ih =>
    cases rest with
    | nil => exact hm
    | cons n rest =>
      refine good_andThen (h _ .head hm) fun flow m₁ hn hm₁ => ?_
      cases flow with
      | normal v => exact ih hm₁ fun c hc => h c (.next hn hc)
      | throw v => exact hm₁
      | jump l v =>
        dsimp only
        cases hp : placeOf l body with
        | nil => exact hm₁
        | cons p place =>
          refine ih hm₁ fun c hc => h c (.again hn ?_)
          rwa [hp]

end

/-! ## Rounds of a loop -/

section

variable {body : Node} {leave next : Label}

theorem RoundsCalls.good (hc : RoundsCalls run body leave next fuel d m c) (hm : Good m)
    (h : ∀ c, RoundsCalls run body leave next fuel d m c → Good c.machine →
      Good (final (c.result run))) : Good c.machine := by
  induction hc with
  | head => exact hm
  | next done _ ih =>
    exact ih (good_of_ok (h _ .head hm) done) fun c hc => h c (.next done hc)
  | continued jumped stays goesOn _ ih =>
    exact ih (good_of_ok (h _ .head hm) jumped) fun c hc => h c (.continued jumped stays goesOn hc)
  | again jumped stays other inside _ ih =>
    exact ih (good_of_ok (h _ .head hm) jumped) fun c hc => h c (.again jumped stays other inside hc)

theorem rounds_good (hm : Good m)
    (h : ∀ c, RoundsCalls run body leave next fuel d m c → Good c.machine →
      Good (final (c.result run))) : Good (final (rounds run body leave next fuel d m)) := by
  induction fuel generalizing d m with
  | zero => exact hm
  | succ fuel ih =>
    refine good_andThen (h _ .head hm) fun flow m₁ hbody hm₁ => ?_
    cases flow with
    | normal v => exact ih hm₁ fun c hc => h c (.next hbody hc)
    | throw v => exact hm₁
    | jump l v =>
      dsimp only
      split
      · exact hm₁
      next hleave =>
        split
        next hnext => exact ih hm₁ fun c hc => h c (.continued hbody hleave hnext hc)
        next hnext =>
          split
          next hinside => exact ih hm₁ fun c hc => h c (.again hbody hleave hnext hinside hc)
          next => exact hm₁

end

/-! ## Arms of a switch -/

section

variable {bodies : List Node} {first : Option Node}

theorem ArmsCalls.good (hc : ArmsCalls run bodies fuel first d m c) (hm : Good m)
    (h : ∀ c, ArmsCalls run bodies fuel first d m c → Good c.machine →
      Good (final (c.result run))) : Good c.machine := by
  induction hc with
  | head => exact hm
  | again jumped _ ih =>
    exact ih (good_of_ok (h _ .head hm) jumped) fun c hc => h c (.again jumped hc)

theorem arms_good (hm : Good m)
    (h : ∀ c, ArmsCalls run bodies fuel first d m c → Good c.machine →
      Good (final (c.result run))) : Good (final (arms run bodies fuel first d m)) := by
  induction fuel generalizing first d m with
  | zero => cases first <;> exact hm
  | succ fuel ih =>
    cases first with
    | none => exact hm
    | some n =>
      refine good_andThen (h _ .head hm) fun flow m₁ hn hm₁ => ?_
      cases flow with
      | normal v => exact hm₁
      | throw v => exact hm₁
      | jump l v =>
        dsimp only
        cases hp : bodies.find? (·.defines l) with
        | none => exact hm₁
        | some n' =>
          refine ih hm₁ fun c hc => h c (.again hn ?_)
          rwa [hp]

end

/-! ## Parts of a guarded region -/

section

variable {body : Node} {handlers : List (Handler Node)} {cleanup : Option Node}
  {entered : Option (Handler Node × Value)}

/-- What a handler is entered with has been found to be of its kind. -/
theorem enter_good (up : Upkeep Good)
    (hcatches : ∀ h ∈ handlers, ∀ s, h.binding = some s → ∀ v m', v.isInstanceOf h.kind = true →
      Good m' → Good (m'.assign s v)) {h : Handler Node} {v : Value}
    (found : handlers.find? (v.isInstanceOf ·.kind) = some h) (hm : Good m) :
    Good (h.enter v m) := by
  have hkind := List.find?_some (p := fun h : Handler Node => v.isInstanceOf h.kind) found
  unfold Handler.enter
  cases hbinding : h.binding with
  | none => exact up.handling _ hm
  | some s =>
    exact up.handling _ (hcatches h (List.mem_of_find?_eq_some found) s hbinding v m hkind hm)

theorem dispatch_good (up : Upkeep Good) {flow : Flow} (hm : Good m)
    (h : ∀ hr v, flow = .throw v → handlers.find? (v.isInstanceOf ·.kind) = some hr →
      Good (final (run hr.body none (hr.enter v m)))) :
    Good (final (dispatch run handlers flow m)) := by
  cases flow with
  | normal v => exact hm
  | jump l v => exact hm
  | throw v =>
    unfold dispatch
    dsimp only
    cases hr : handlers.find? (v.isInstanceOf ·.kind) with
    | none => exact hm
    | some hd =>
      have hbody := h hd v rfl hr
      show Good (final (handle run hd v m))
      rw [handle_eq]
      cases hresult : run hd.body none (hd.enter v m) with
      | ok flow m₁ =>
        rw [hresult] at hbody
        exact up.handling _ hbody
      | error e m₁ =>
        rw [hresult] at hbody
        exact up.handling _ hbody

theorem cleaning_good {pending : Flow} (hm : Good m)
    (h : ∀ n, cleanup = some n → Good (final (run n none m))) :
    Good (final (cleaning run cleanup pending m)) := by
  cases cleanup with
  | none => exact hm
  | some n =>
    refine good_andThen (h n rfl) fun flow m₁ _ hm₁ => ?_
    cases flow <;> exact hm₁

theorem RegionCalls.good (up : Upkeep Good)
    (hcatches : ∀ h ∈ handlers, ∀ s, h.binding = some s → ∀ v m', v.isInstanceOf h.kind = true →
      Good m' → Good (m'.assign s v))
    (hc : RegionCalls run body handlers cleanup fuel d m entered c) (hm : Good m)
    (h : ∀ entered c, RegionCalls run body handlers cleanup fuel d m entered c →
      Good c.machine → Good (final (c.result run))) : Good c.machine := by
  -- The handler of an exception, if there is one, has ended well.
  have hdispatched : ∀ {fuel d m flow m₁ flow' m₂}, entrance body cleanup d = .body → Good m →
      (∀ entered c, RegionCalls run body handlers cleanup (fuel + 1) d m entered c →
        Good c.machine → Good (final (c.result run))) →
      run body d m = .ok flow m₁ → dispatch run handlers flow m₁ = .ok flow' m₂ → Good m₂ := by
    intro fuel d m flow m₁ flow' m₂ start hm h ended dispatched
    have hm₁ : Good m₁ := good_of_ok (h _ _ (.body start) hm) ended
    have hend : Good (final (dispatch run handlers flow m₁)) := by
      refine dispatch_good up hm₁ fun hr v hflow found => ?_
      subst hflow
      exact h _ _ (.handler start ended found) (enter_good up hcatches found hm₁)
    exact good_of_ok hend dispatched
  induction hc with
  | entered => exact hm
  | body => exact hm
  | handler start threw found =>
    exact enter_good up hcatches found (good_of_ok (h _ _ (.body start) hm) threw)
  | cleaning start ended dispatched => exact hdispatched start hm h ended dispatched
  | again start ended dispatched inside _ ih =>
    refine ih (hdispatched start hm h ended dispatched) fun entered c hc => ?_
    exact h entered c (.again start ended dispatched inside hc)

theorem region_good (up : Upkeep Good)
    (hcatches : ∀ h ∈ handlers, ∀ s, h.binding = some s → ∀ v m', v.isInstanceOf h.kind = true →
      Good m' → Good (m'.assign s v)) (hm : Good m)
    (h : ∀ entered c, RegionCalls run body handlers cleanup fuel d m entered c →
      Good c.machine → Good (final (c.result run))) :
    Good (final (region run body handlers cleanup fuel d m)) := by
  induction fuel generalizing d m with
  | zero => exact hm
  | succ fuel ih =>
    unfold region
    cases start : entrance body cleanup d with
    | handler l => exact hm
    | cleanup n => exact h none _ (.entered start) hm
    | body =>
      refine good_andThen (h none _ (.body start) hm) fun flow m₁ hbody hm₁ => ?_
      have hdispatch : Good (final (dispatch run handlers flow m₁)) := by
        refine dispatch_good up hm₁ fun hr v hflow found => ?_
        subst hflow
        exact h _ _ (.handler start hbody found) (enter_good up hcatches found hm₁)
      refine good_andThen hdispatch fun flow' m₂ hd hm₂ => ?_
      have hclean : (∀ l v, flow' = .jump l v → regionDefines l body handlers cleanup = false) →
          Good (final (cleaning run cleanup flow' m₂)) := fun hleaves =>
        cleaning_good hm₂ fun n hn => h none _ (.cleaning start hbody hd hleaves hn) hm₂
      cases flow' with
      | normal v =>
        refine hclean fun l v' hl => ?_
        cases hl
      | throw v =>
        refine hclean fun l v' hl => ?_
        cases hl
      | jump l v =>
        dsimp only
        split
        next hinside =>
          exact ih hm₂ fun entered c hc => h entered c (.again start hbody hd hinside hc)
        next hinside =>
          refine hclean fun l' v' hl => ?_
          cases hl
          exact Bool.eq_false_iff.mpr hinside

end

end Exec

namespace Node

open Exec

variable {fuel : Nat} {n : Node} {d : Option Descent} {m : Machine ω} {c : Call ω}
  {entered : Option (Handler Node × Value)}

/-- The calls of a node that upholds the property start from machines that have it. -/
theorem Calls.good (up : Upkeep Good) (own : n.Upholds Good m)
    (hc : Calls (fuel + 1) n d m entered c) (hm : Good m)
    (h : ∀ entered c, Calls (fuel + 1) n d m entered c → Good c.machine →
      Good (final (c.result (execWithin fuel)))) : Good c.machine := by
  have hticked : ∀ {m₁ : Machine ω}, tick m = .ok () m₁ → Good m₁ := fun ticked =>
    good_of_ok (tick_good up hm) ticked
  cases hc with
  | block ticked call =>
    refine call.good (own.declare _ _ _ rfl (hticked ticked)) fun c hc => ?_
    exact h none c (.block ticked hc)
  | sought ticked => exact hticked ticked
  | tested ticked value =>
    exact up.evaluated (hticked ticked) ((Eval.closed_quiet.eval _).ok value)
  | loop ticked call => exact call.good (hticked ticked) fun c hc => h none c (.loop ticked hc)
  | armSought ticked call =>
    exact call.good (hticked ticked) fun c hc => h none c (.armSought ticked hc)
  | @armSelected _ value arms _ _ _ _ _ _ ticked selected call =>
    have hm₂ := up.evaluated (hticked ticked) ((choice_quiet value arms).ok selected)
    refine call.good hm₂ fun c hc => ?_
    exact h none c (.armSelected ticked selected hc)
  | attempt ticked call =>
    exact call.good up own.catches (hticked ticked) fun entered c hc =>
      h entered c (.attempt ticked hc)

/-- So does the machine after it. -/
theorem execWithin_good (up : Upkeep Good) (own : n.Upholds Good m) (hm : Good m)
    (h : ∀ entered c, Calls (fuel + 1) n d m entered c → Good c.machine →
      Good (final (c.result (execWithin fuel)))) :
    Good (final (n.execWithin (fuel + 1) d m)) := by
  refine good_andThen (tick_good up hm) fun _ m₁ ticked hm₁ => ?_
  cases n with
  | nop => exact hm₁
  | eval e => exact evaluating_good up (Eval.closed_quiet.eval e) hm₁ fun _ _ _ hm₂ => hm₂
  | assign target value =>
    refine evaluating_good up (Eval.closed_quiet.eval value) hm₁ fun v m₂ hv hm₂ => ?_
    exact own.assign target value m₁ v m₂ rfl ticked hv hm₂
  | block locals body =>
    refine good_andThen (own.declare locals body m₁ rfl hm₁) fun _ m₂ hdeclare hm₂ => ?_
    obtain rfl := modify_ok.mp hdeclare
    cases d with
    | none => exact sequence_good hm₂ fun c hc => h none c (.block ticked hc)
    | some s => exact sequence_good hm₂ fun c hc => h none c (.block ticked hc)
  | branch test yes no =>
    cases d with
    | some s =>
      have hsought := h none _ (.sought ticked) hm₁
      dsimp only
      split
      next hyes => simpa only [Call.result, hyes, if_true] using hsought
      next hno => simpa only [Call.result, hno, if_false, Bool.false_eq_true] using hsought
    | none =>
      refine evaluating_good up (Eval.closed_quiet.eval test) hm₁ fun v m₂ hv hm₂ => ?_
      split
      · exact h none _ (.tested ticked hv) hm₂
      · exact h none _ (.tested ticked hv) hm₂
      · exact hm₂
  | loop body leave next => exact rounds_good hm₁ fun c hc => h none c (.loop ticked hc)
  | label target default => exact hm₁
  | goto target value =>
    cases value with
    | none => exact hm₁
    | some e => exact evaluating_good up (Eval.closed_quiet.eval e) hm₁ fun _ _ _ hm₂ => hm₂
  | switch value arms default =>
    cases d with
    | some s => exact arms_good hm₁ fun c hc => h none c (.armSought ticked hc)
    | none =>
      refine evaluating_good up (choice_quiet value arms) hm₁ fun found m₂ hfound hm₂ => ?_
      exact arms_good hm₂ fun c hc => h none c (.armSelected ticked hfound hc)
  | attempt body handlers cleanup =>
    exact region_good up own.catches hm₁ fun entered c hc => h entered c (.attempt ticked hc)
  | throw e => exact evaluating_good up (Eval.closed_quiet.eval e) hm₁ fun _ _ _ hm₂ => hm₂
  | rethrow =>
    show Good (final (((get : Exec ω (Machine ω)) >>= _) m₁))
    refine good_andThen hm₁ fun m₂ m₃ hget hm₃ => ?_
    cases m₂.handling.head? <;> exact hm₃

/-- An execution whose visits uphold the property ends in a machine that has it. -/
theorem good (up : Upkeep Good) (hm : Good c.machine)
    (own : ∀ fuel' around caught c', Visits fuel c fuel' around caught c' → Good c'.machine →
      c'.node.Upholds Good c'.machine) : Good (final (c.result (execWithin fuel))) := by
  induction fuel generalizing c with
  | zero => exact hm
  | succ fuel ih =>
    refine execWithin_good up (own _ _ _ _ .here hm) hm fun entered c₁ call hc₁ => ?_
    exact ih hc₁ fun fuel' around caught c' hv => own _ _ _ _ (.inside call hv)

/-- And all its visits start from machines that have it. -/
theorem Visits.good {fuel' : Nat} {around : List Node} {caught : List (Handler Node × Value)}
    {c' : Call ω} (hv : Visits fuel c fuel' around caught c') (up : Upkeep Good)
    (hm : Good c.machine)
    (own : ∀ fuel' around caught c', Visits fuel c fuel' around caught c' → Good c'.machine →
      c'.node.Upholds Good c'.machine) : Good c'.machine := by
  induction hv with
  | here => exact hm
  | inside call _ ih =>
    have hown := fun {entered c₁} (call : Calls _ _ _ _ entered c₁) fuel' around caught c' hv =>
      own fuel' (around ++ _) (caught ++ entered.toList) c' (.inside call hv)
    refine ih (call.good up (own _ _ _ _ .here hm) hm fun entered c₁ call hc₁ => ?_) (hown call)
    exact Node.good up hc₁ (hown call)

end Node

end StructuredFlow
