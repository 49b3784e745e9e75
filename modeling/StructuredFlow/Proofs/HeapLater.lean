import StructuredFlow.Proofs.Visits

/-
  The heap at the end of a visit and at the end of the whole execution: what is executed after the
  visit only lets the heap go on (`Node.Visits.heap_evolves`). So a value that a visit has left keeps
  its type until the run ends.
-/

namespace StructuredFlow

variable {ω : Type}

open Outcome Machine

namespace Exec

variable {run : Runner ω} {fuel : Nat} {d : Option Descent} {m : Machine ω} {c : Call ω}

/-- The second part of a program lets the heap of the first part go on. -/
theorem heap_andThen {α : Type} {x : Exec ω α} {f : α → Exec ω Flow}
    (hf : ∀ a m₁, x m = .ok a m₁ → m₁.heap.Evolves (final (f a m₁)).heap) :
    (final (x m)).heap.Evolves (final ((x >>= f) m)).heap := by
  cases hx : x m with
  | ok a m₁ =>
    rw [andThen_of_ok hx]
    exact hf a m₁ hx
  | error e m₁ =>
    have herror : (x >>= f) m = .error e m₁ := andThen_error.mpr (.inl hx)
    rw [herror]
    exact .refl _

variable (hrun : ∀ n d, Keeping (run n d))
include hrun

theorem SequenceCalls.heap_evolves {body rest : List Node}
    (hc : SequenceCalls run body fuel rest d m c) (last : Value) :
    (final (c.result run)).heap.Evolves (final (sequence run body fuel rest d last m)).heap := by
  induction hc generalizing last with
  | @head fuel n rest d m =>
    refine heap_andThen fun flow m₁ _ => ?_
    cases flow with
    | normal v => exact (sequence_keeping hrun body _ _ _ _ m₁).heap
    | throw v => exact .refl _
    | jump l v =>
      dsimp only
      cases placeOf l body with
      | nil => exact .refl _
      | cons n place => exact (sequence_keeping hrun body _ _ _ _ m₁).heap
  | next done _ ih =>
    rw [sequence, andThen_of_ok done]
    exact ih _
  | @again fuel n rest d m l v m₁ c jumped later ih =>
    rw [sequence, andThen_of_ok jumped]
    dsimp only
    cases hplace : placeOf l body with
    | nil =>
      rw [hplace] at later
      cases later
    | cons n' place =>
      rw [hplace] at ih
      exact ih last

theorem RoundsCalls.heap_evolves {body : Node} {leave next : Label}
    (hc : RoundsCalls run body leave next fuel d m c) :
    (final (c.result run)).heap.Evolves (final (rounds run body leave next fuel d m)).heap := by
  induction hc with
  | @head fuel d m =>
    refine heap_andThen fun flow m₁ _ => ?_
    have hrounds := fun d => (rounds_keeping hrun body leave next fuel d m₁).heap
    cases flow with
    | normal v => exact hrounds none
    | throw v => exact .refl _
    | jump l v =>
      dsimp only
      split
      · exact .refl _
      · split
        · exact hrounds none
        · split
          · exact hrounds _
          · exact .refl _
  | next done _ ih =>
    rw [rounds, andThen_of_ok done]
    exact ih
  | continued jumped stays goesOn _ ih =>
    rw [rounds, andThen_of_ok jumped]
    dsimp only
    rw [if_neg stays, if_pos goesOn]
    exact ih
  | again jumped stays other inside _ ih =>
    rw [rounds, andThen_of_ok jumped]
    dsimp only
    rw [if_neg stays, if_neg other, if_pos inside]
    exact ih

theorem ArmsCalls.heap_evolves {bodies : List Node} {first : Option Node}
    (hc : ArmsCalls run bodies fuel first d m c) :
    (final (c.result run)).heap.Evolves (final (arms run bodies fuel first d m)).heap := by
  induction hc with
  | head =>
    refine heap_andThen fun flow m₁ _ => ?_
    cases flow with
    | normal v => exact .refl _
    | throw v => exact .refl _
    | jump l v =>
      dsimp only
      cases bodies.find? (·.defines l) with
      | none => exact .refl _
      | some n' => exact (arms_keeping hrun bodies _ _ _ m₁).heap
  | @again fuel n d m l v m₁ c jumped later ih =>
    rw [arms, andThen_of_ok jumped]
    dsimp only
    cases hfound : bodies.find? (·.defines l) with
    | none =>
      rw [hfound] at later
      cases later
    | some n' =>
      rw [hfound] at ih
      exact ih

/-- What is left of a region once its body and the handler have ended. -/
theorem leave_heap {body : Node} {handlers : List (Handler Node)} {cleanup : Option Node}
    (flow : Flow) (m : Machine ω) :
    m.heap.Evolves (final ((match flow with
      | .jump l v =>
        if regionDefines l body handlers cleanup then
          region run body handlers cleanup fuel (some ⟨l, v⟩)
        else cleaning run cleanup (.jump l v)
      | flow => cleaning run cleanup flow : Exec ω Flow) m)).heap := by
  have hcleaning := fun flow => (cleaning_keeping hrun cleanup flow m).heap
  cases flow with
  | normal v => exact hcleaning _
  | throw v => exact hcleaning _
  | jump l v =>
    dsimp only
    split
    · exact (region_keeping hrun body handlers cleanup fuel _ m).heap
    · exact hcleaning _

theorem RegionCalls.heap_evolves {body : Node} {handlers : List (Handler Node)}
    {cleanup : Option Node} {entered : Option (Handler Node × Value)}
    (hc : RegionCalls run body handlers cleanup fuel d m entered c) :
    (final (c.result run)).heap.Evolves
      (final (region run body handlers cleanup fuel d m)).heap := by
  induction hc with
  | entered start =>
    rw [region, start]
    exact .refl _
  | body start =>
    rw [region, start]
    refine heap_andThen fun flow m₁ _ => ?_
    exact (dispatch_keeping hrun handlers flow m₁).heap.trans
      (heap_andThen fun flow m₂ _ => leave_heap hrun flow m₂)
  | @handler fuel d m v m₁ h start threw found =>
    rw [region, start]
    dsimp only
    rw [andThen_of_ok threw]
    -- The end of a handler takes its exception off and leaves the heap as it is.
    have hend : (final (Call.result run ⟨h.body, none, h.enter v m₁⟩)).heap =
        (final (dispatch run handlers (.throw v) m₁)).heap := by
      unfold dispatch
      dsimp only
      rw [found]
      dsimp only
      rw [handle_eq, Call.result]
      cases run h.body none (h.enter v m₁) <;> rfl
    rw [hend]
    exact heap_andThen fun flow m₂ _ => leave_heap hrun flow m₂
  | @cleaning fuel d m flow m₁ flow' m₂ n start ended dispatched leaves present =>
    rw [region, start]
    dsimp only
    rw [andThen_of_ok ended, andThen_of_ok dispatched]
    have hclean : (final (Call.result run ⟨n, none, m₂⟩)).heap.Evolves
        (final (Exec.cleaning run cleanup flow' m₂)).heap := by
      rw [present]
      refine heap_andThen fun flow m₃ _ => ?_
      cases flow <;> exact .refl _
    cases flow' with
    | normal v => exact hclean
    | throw v => exact hclean
    | jump l v =>
      dsimp only
      rw [if_neg (Bool.eq_false_iff.mp (leaves l v rfl))]
      exact hclean
  | again start ended dispatched inside _ ih =>
    rw [region, start]
    dsimp only
    rw [andThen_of_ok ended, andThen_of_ok dispatched]
    dsimp only
    rw [if_pos inside]
    exact ih

end Exec

namespace Node

open Exec

variable {fuel : Nat} {n : Node} {d : Option Descent} {m : Machine ω} {c : Call ω}
  {entered : Option (Handler Node × Value)}

/-- What a node does after a call lets the heap go on. -/
theorem Calls.heap_evolves (hc : Calls (fuel + 1) n d m entered c) :
    (final (c.result (execWithin fuel))).heap.Evolves
      (final (n.execWithin (fuel + 1) d m)).heap := by
  have hrun := execWithin_keeping (ω := ω) fuel
  cases hc with
  | @block _ locals body _ _ m₁ _ ticked call =>
    cases d with
    | none =>
      rw [execWithin, step, andThen_of_ok ticked]
      exact call.heap_evolves hrun _
    | some s =>
      rw [execWithin, step, andThen_of_ok ticked]
      exact call.heap_evolves hrun _
  | @sought _ test yes no s m m₁ ticked =>
    rw [execWithin, step, andThen_of_ok ticked, Call.result]
    split <;> exact .refl _
  | @tested _ test yes no m m₁ holds m₂ ticked value =>
    rw [execWithin, step, andThen_of_ok ticked]
    dsimp only [evaluating]
    rw [value]
    cases holds <;> exact .refl _
  | loop ticked call =>
    rw [execWithin, step, andThen_of_ok ticked]
    exact call.heap_evolves hrun
  | armSought ticked call =>
    rw [execWithin, step, andThen_of_ok ticked]
    exact call.heap_evolves hrun
  | armSelected ticked selected call =>
    rw [execWithin, step, andThen_of_ok ticked]
    dsimp only [evaluating]
    rw [selected]
    exact call.heap_evolves hrun
  | attempt ticked call =>
    rw [execWithin, step, andThen_of_ok ticked]
    exact call.heap_evolves hrun

/-- What is executed after a visit lets the heap go on. -/
theorem Visits.heap_evolves {fuel' : Nat} {around : List Node}
    {caught : List (Handler Node × Value)} {c' : Call ω}
    (h : Visits fuel c fuel' around caught c') :
    (final (c'.result (execWithin fuel'))).heap.Evolves
      (final (c.result (execWithin fuel))).heap := by
  induction h with
  | here => exact .refl _
  | inside call _ ih => exact ih.trans call.heap_evolves

end Node

end StructuredFlow
