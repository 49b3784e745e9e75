import StructuredFlow.Proofs.HeapLater
import StructuredFlow.Proofs.StepsCounted

/-
  What becomes of a call that ends with an exception or stops for a cause. A cause goes up through
  every node around, past handlers and cleanups, and only takes back what handlers have pushed
  (`Node.Visits.error`). An exception goes up through every node but a guarded region
  (`Node.Calls.abrupt`). There, one of the body goes to the first handler that is meant for it
  (`Exec.BodyThrows.handled`); with no such handler, or out of a handler, it leaves the region by
  the cleanup (`Exec.RegionLeaves`).
-/

namespace StructuredFlow

variable {ω : Type}

open Outcome Machine

/-- An outcome with which whatever is around does not go on: an exception, or no flow at all. -/
inductive Abrupt : EStateM.Result Halt (Machine ω) Flow → Prop
  | throw (v : Value) (m : Machine ω) : Abrupt (.ok (.throw v) m)
  | error (e : Halt) (m : Machine ω) : Abrupt (.error e m)

namespace Exec

variable {run : Runner ω} {fuel : Nat} {d : Option Descent} {m m' : Machine ω} {c : Call ω}

/-! ## Rows, rounds and arms -/

theorem SequenceCalls.abrupt {body rest : List Node} (hc : SequenceCalls run body fuel rest d m c)
    (h : Abrupt (c.result run)) (last : Value) :
    sequence run body fuel rest d last m = c.result run := by
  induction hc generalizing last with
  | @head fuel n rest d m =>
    generalize hr : Call.result run ⟨n, d, m⟩ = r at h
    cases h with
    | throw v m' => rw [sequence, andThen_of_ok hr]; rfl
    | error e m' => exact andThen_error.mpr (.inl hr)
  | next done _ ih =>
    rw [sequence, andThen_of_ok done]
    exact ih h _
  | @again fuel n rest d m l v m₁ c jumped later ih =>
    rw [sequence, andThen_of_ok jumped]
    dsimp only
    cases hplace : placeOf l body with
    | nil =>
      rw [hplace] at later
      cases later
    | cons n' place =>
      rw [hplace] at ih
      exact ih h last

theorem RoundsCalls.abrupt {body : Node} {leave next : Label}
    (hc : RoundsCalls run body leave next fuel d m c) (h : Abrupt (c.result run)) :
    rounds run body leave next fuel d m = c.result run := by
  induction hc with
  | @head fuel d m =>
    generalize hr : Call.result run ⟨body, d, m⟩ = r at h
    cases h with
    | throw v m' => rw [rounds, andThen_of_ok hr]; rfl
    | error e m' => exact andThen_error.mpr (.inl hr)
  | next done _ ih =>
    rw [rounds, andThen_of_ok done]
    exact ih h
  | continued jumped stays goesOn _ ih =>
    rw [rounds, andThen_of_ok jumped]
    dsimp only
    rw [if_neg stays, if_pos goesOn]
    exact ih h
  | again jumped stays other inside _ ih =>
    rw [rounds, andThen_of_ok jumped]
    dsimp only
    rw [if_neg stays, if_neg other, if_pos inside]
    exact ih h

theorem ArmsCalls.abrupt {bodies : List Node} {first : Option Node}
    (hc : ArmsCalls run bodies fuel first d m c) (h : Abrupt (c.result run)) :
    arms run bodies fuel first d m = c.result run := by
  induction hc with
  | @head fuel n d m =>
    generalize hr : Call.result run ⟨n, d, m⟩ = r at h
    cases h with
    | throw v m' => rw [arms, andThen_of_ok hr]; rfl
    | error e m' => exact andThen_error.mpr (.inl hr)
  | @again fuel n d m l v m₁ c jumped later ih =>
    rw [arms, andThen_of_ok jumped]
    dsimp only
    cases hfound : bodies.find? (·.defines l) with
    | none =>
      rw [hfound] at later
      cases later
    | some n' =>
      rw [hfound] at ih
      exact ih h

/-! ## Guarded regions -/

section

variable {body : Node} {handlers : List (Handler Node)} {cleanup : Option Node}
  {flow flow' : Flow} {m₁ m₂ : Machine ω}

/-- A region that is left, by way of its cleanup. -/
theorem region_leaving (start : entrance body cleanup d = .body)
    (ended : run body d m = .ok flow m₁)
    (dispatched : dispatch run handlers flow m₁ = .ok flow' m₂)
    (leaves : ∀ l v, flow' = .jump l v → regionDefines l body handlers cleanup = false) :
    region run body handlers cleanup (fuel + 1) d m = cleaning run cleanup flow' m₂ := by
  rw [region, start]
  dsimp only
  rw [andThen_of_ok ended, andThen_of_ok dispatched]
  cases flow' with
  | normal v => rfl
  | throw v => rfl
  | jump l v =>
    dsimp only
    rw [if_neg (Bool.eq_false_iff.mp (leaves l v rfl))]

/-- A region whose jump leads to a place inside of it. -/
theorem region_again {l : LabelId} {v : Option Value} (start : entrance body cleanup d = .body)
    (ended : run body d m = .ok flow m₁)
    (dispatched : dispatch run handlers flow m₁ = .ok (.jump l v) m₂)
    (inside : regionDefines l body handlers cleanup = true) :
    region run body handlers cleanup (fuel + 1) d m =
      region run body handlers cleanup fuel (some ⟨l, v⟩) m₂ := by
  rw [region, start]
  dsimp only
  rw [andThen_of_ok ended, andThen_of_ok dispatched]
  dsimp only
  rw [if_pos inside]

theorem dispatch_found {v : Value} {h : Handler Node}
    (found : handlers.find? (v.isInstanceOf ·.kind) = some h) :
    dispatch run handlers (.throw v) m = handle run h v m := by
  rw [dispatch, found]

theorem dispatch_none {v : Value} (none : handlers.find? (v.isInstanceOf ·.kind) = none) :
    dispatch run handlers (.throw v) m = .ok (.throw v) m := by
  rw [dispatch, none]
  rfl

/-- The machine with what another one is handling is itself, if it is handling the same. -/
theorem handling_restored (h : m'.handling = m.handling) :
    { m' with handling := m.handling } = m' := by
  rw [← h]

/-- A cause that stops a part of a region stops the region. -/
theorem RegionCalls.error {entered : Option (Handler Node × Value)}
    (hc : RegionCalls run body handlers cleanup fuel d m entered c)
    (hrun : ∀ n d, Keeping (run n d)) {e : Halt} (h : c.result run = .error e m') :
    region run body handlers cleanup fuel d m = .error e { m' with handling := m.handling } := by
  induction hc with
  | entered start =>
    rw [region, start, handling_restored ((hrun _ _).error h).handling]
    exact h
  | body start =>
    rw [region, start, handling_restored ((hrun _ _).error h).handling]
    exact andThen_error.mpr (.inl h)
  | @handler fuel d m v m₁ hd start threw found =>
    rw [region, start]
    dsimp only
    rw [andThen_of_ok threw]
    refine andThen_error.mpr (.inl ?_)
    rw [dispatch_found found]
    refine handle_error.mpr ⟨m', h, ?_⟩
    -- The body of the handler has left the exception on top of what was handled before.
    have hbody := ((hrun hd.body none).error h).handling
    rw [hd.handling_enter, ((hrun body d).ok threw).handling] at hbody
    rw [endHandling, hbody]
    rfl
  | @cleaning fuel d m flow m₁ flow' m₂ n start ended dispatched leaves present =>
    have hstays := ((hrun body d).ok ended).trans ((dispatch_keeping hrun _ _).ok dispatched)
    rw [region_leaving start ended dispatched leaves, present,
      handling_restored ((hstays.trans ((hrun n none).error h)).handling)]
    exact andThen_error.mpr (.inl h)
  | again start ended dispatched inside _ ih =>
    have hstays := ((hrun _ _).ok ended).trans ((dispatch_keeping hrun _ _).ok dispatched)
    rw [region_again start ended dispatched inside, ih h, hstays.handling]

/-- In the execution of a region, the body ends with an exception. -/
inductive BodyThrows (run : Runner ω) (body : Node) (handlers : List (Handler Node))
    (cleanup : Option Node) : Nat → Option Descent → Machine ω → Value → Machine ω → Prop
  | now {fuel d m v m₁} (start : entrance body cleanup d = .body)
      (threw : run body d m = .ok (.throw v) m₁) :
      BodyThrows run body handlers cleanup (fuel + 1) d m v m₁
  | again {fuel d m flow m₁ l v m₂ w m₃} (start : entrance body cleanup d = .body)
      (ended : run body d m = .ok flow m₁)
      (dispatched : dispatch run handlers flow m₁ = .ok (.jump l v) m₂)
      (inside : regionDefines l body handlers cleanup = true)
      (later : BodyThrows run body handlers cleanup fuel (some ⟨l, v⟩) m₂ w m₃) :
      BodyThrows run body handlers cleanup (fuel + 1) d m w m₃

/-- An exception leaves a region: the cleanup is run first, if there is one, and if it ends normally
or there is none, the region ends with the exception. -/
structure RegionLeaves (run : Runner ω) (body : Node) (handlers : List (Handler Node))
    (cleanup : Option Node) (fuel : Nat) (d : Option Descent) (m : Machine ω) (v : Value)
    (m₁ : Machine ω) : Prop where
  cleans : ∀ n, cleanup = some n →
    RegionCalls run body handlers cleanup fuel d m none ⟨n, none, m₁⟩
  cleaned : ∀ n, cleanup = some n → ∀ w m₂, run n none m₁ = .ok (.normal w) m₂ →
    region run body handlers cleanup fuel d m = .ok (.throw v) m₂
  plain : cleanup = none → region run body handlers cleanup fuel d m = .ok (.throw v) m₁

namespace RegionLeaves

variable {v : Value}

theorem of_dispatched (start : entrance body cleanup d = .body)
    (ended : run body d m = .ok flow m₁)
    (dispatched : dispatch run handlers flow m₁ = .ok (.throw v) m₂) :
    RegionLeaves run body handlers cleanup (fuel + 1) d m v m₂ where
  cleans n hn := .cleaning start ended dispatched nofun hn
  cleaned n hn w m₃ hw := by
    rw [region_leaving start ended dispatched nofun, hn]
    exact andThen_of_ok hw
  plain hn := by
    rw [region_leaving start ended dispatched nofun, hn]
    rfl

theorem again {l : LabelId} {w : Option Value} {m₃ : Machine ω}
    (start : entrance body cleanup d = .body) (ended : run body d m = .ok flow m₁)
    (dispatched : dispatch run handlers flow m₁ = .ok (.jump l w) m₂)
    (inside : regionDefines l body handlers cleanup = true)
    (h : RegionLeaves run body handlers cleanup fuel (some ⟨l, w⟩) m₂ v m₃) :
    RegionLeaves run body handlers cleanup (fuel + 1) d m v m₃ where
  cleans n hn := .again start ended dispatched inside (h.cleans n hn)
  cleaned n hn w m' hw := by
    rw [region_again start ended dispatched inside]
    exact h.cleaned n hn w m' hw
  plain hn := by
    rw [region_again start ended dispatched inside]
    exact h.plain hn

end RegionLeaves

/-- An exception of the body goes to the first handler that is meant for it. -/
theorem BodyThrows.handled {v : Value}
    (h : BodyThrows run body handlers cleanup fuel d m v m₁) {hd : Handler Node}
    (found : handlers.find? (v.isInstanceOf ·.kind) = some hd) :
    RegionCalls run body handlers cleanup fuel d m (some (hd, v))
      ⟨hd.body, none, hd.enter v m₁⟩ := by
  induction h with
  | now start threw => exact .handler start threw found
  | again start ended dispatched inside _ ih =>
    exact .again start ended dispatched inside (ih found)

/-- An exception of the body that no handler is meant for leaves the region. -/
theorem BodyThrows.leaves {v : Value} (h : BodyThrows run body handlers cleanup fuel d m v m₁)
    (none : handlers.find? (v.isInstanceOf ·.kind) = none) :
    RegionLeaves run body handlers cleanup fuel d m v m₁ := by
  induction h with
  | now start threw => exact .of_dispatched start threw (dispatch_none none)
  | again start ended dispatched inside _ ih => exact .again start ended dispatched inside (ih none)

/-- An exception of a handler leaves the region. -/
theorem RegionCalls.handler_throws {entry : Handler Node × Value} {v : Value}
    (hc : RegionCalls run body handlers cleanup fuel d m (some entry) c)
    (h : c.result run = .ok (.throw v) m₁) :
    RegionLeaves run body handlers cleanup fuel d m v m₁.endHandling := by
  generalize hentered : some entry = entered at hc
  induction hc with
  | entered | body | cleaning => cases hentered
  | handler start threw found =>
    refine .of_dispatched start threw ?_
    rw [dispatch_found found]
    exact handle_ok.mpr ⟨m₁, h, rfl⟩
  | again start ended dispatched inside _ ih =>
    exact .again start ended dispatched inside (ih h hentered)

/-- A call that is not of a handler and ends with an exception is of the body, or it is of the
cleanup and the region ends so. -/
theorem RegionCalls.throws {v : Value}
    (hc : RegionCalls run body handlers cleanup fuel d m none c)
    (h : c.result run = .ok (.throw v) m₁) :
    BodyThrows run body handlers cleanup fuel d m v m₁ ∨
      cleanup = some c.node ∧ region run body handlers cleanup fuel d m = .ok (.throw v) m₁ := by
  generalize hentered : (none : Option (Handler Node × Value)) = entered at hc
  induction hc with
  | entered start =>
    refine .inr ⟨(entrance_cleanup start).1, ?_⟩
    rw [region, start]
    exact h
  | body start => exact .inl (.now start h)
  | handler => cases hentered
  | cleaning start ended dispatched leaves present =>
    refine .inr ⟨present, ?_⟩
    rw [region_leaving start ended dispatched leaves, present]
    exact andThen_of_ok h
  | again start ended dispatched inside _ ih =>
    rcases ih h hentered with hbody | ⟨hcleanup, hregion⟩
    · exact .inl (.again start ended dispatched inside hbody)
    · exact .inr ⟨hcleanup, (region_again start ended dispatched inside).trans hregion⟩

end

end Exec

/-! ## Nodes -/

namespace Node

open Exec

/-- The cleanup of a guarded region. -/
def cleanup : Node → Option Node
  | attempt _ _ cleanup => cleanup
  | _ => none

/-- A node is a guarded region. -/
def IsRegion (n : Node) : Prop :=
  ∃ body handlers cleanup, n = attempt body handlers cleanup

variable {fuel : Nat} {n : Node} {d : Option Descent} {m m' : Machine ω} {c : Call ω}
  {entered : Option (Handler Node × Value)}

/-- The abrupt end of a call is that of its node, unless the node is a guarded region. -/
theorem Calls.abrupt (hc : Calls (fuel + 1) n d m entered c) (hn : ¬n.IsRegion)
    (h : Abrupt (c.result (execWithin fuel))) :
    n.execWithin (fuel + 1) d m = c.result (execWithin fuel) := by
  rw [execWithin, step.eq_def]
  cases hc with
  | @block _ locals body _ _ m₁ _ ticked call =>
    rw [andThen_of_ok ticked]
    cases d with
    | none => exact call.abrupt h _
    | some s => exact call.abrupt h _
  | @sought _ test yes no s m m₁ ticked =>
    rw [andThen_of_ok ticked, Call.result]
    dsimp only
    split <;> rfl
  | @tested _ test yes no m m₁ holds m₂ ticked value =>
    rw [andThen_of_ok ticked]
    dsimp only [evaluating]
    rw [value]
    cases holds <;> rfl
  | loop ticked call =>
    rw [andThen_of_ok ticked]
    exact call.abrupt h
  | armSought ticked call =>
    rw [andThen_of_ok ticked]
    exact call.abrupt h
  | armSelected ticked selected call =>
    rw [andThen_of_ok ticked]
    dsimp only [evaluating]
    rw [selected]
    exact call.abrupt h
  | attempt => exact absurd ⟨_, _, _, rfl⟩ hn

/-- A cause that stops a call stops its node. What handlers have pushed is taken back; nothing else
is done. -/
theorem Calls.error (hc : Calls (fuel + 1) n d m entered c) {e : Halt}
    (h : c.result (execWithin fuel) = .error e m') :
    n.execWithin (fuel + 1) d m = .error e { m' with handling := m.handling } := by
  by_cases hn : n.IsRegion
  · obtain ⟨body, handlers, cleanup, rfl⟩ := hn
    cases hc with
    | attempt ticked call =>
      rw [execWithin, step, andThen_of_ok ticked, ← (tick_keeping.ok ticked).handling]
      exact call.error (execWithin_keeping fuel) h
  · have hsame := hc.abrupt hn (h ▸ .error e m')
    rw [h] at hsame
    rw [hsame, handling_restored ((execWithin_keeping _ n d).error hsame).handling]

/-- A cause that stops a visit stops the whole execution, as it is. -/
theorem Visits.error {fuel' : Nat} {around : List Node} {caught : List (Handler Node × Value)}
    {c' : Call ω} (h : Visits fuel c fuel' around caught c') {e : Halt}
    (herror : c'.result (execWithin fuel') = .error e m') :
    c.result (execWithin fuel) = .error e { m' with handling := c.machine.handling } := by
  induction h with
  | here =>
    rw [handling_restored ((execWithin_keeping _ _ _).error herror).handling]
    exact herror
  | inside call _ ih => exact (call.error (ih herror) :)

end Node

end StructuredFlow
