import Mathlib.Data.List.TakeWhile
import StructuredFlow.Proofs.MachineKept

/-
  Which executions an execution consists of. Statements in a row, rounds of a loop, arms of a
  switch and the parts of a guarded region are run one after the other, and which comes next is
  settled by how the one before ended. `SequenceCalls` and its like list the calls that a loop of
  the machine makes, with the machine that each starts from. A call starts from a machine that has
  what the first one had (`…_stays`), and when the whole ends with a jump or stops for a cause, a
  call has ended so (`…_ending`).
-/

namespace StructuredFlow

variable {ω : Type}

/-- The execution of one node: from its start or with a place to be found, in some machine. -/
structure Call (ω : Type) where
  node : Node
  descent : Option Descent
  machine : Machine ω

/-- How a call comes out. -/
def Call.result (run : Runner ω) (c : Call ω) : EStateM.Result Halt (Machine ω) Flow :=
  run c.node c.descent c.machine

/-- The ends of an execution that the nodes around hand on: a jump, or a cause to stop. -/
inductive Ending where
  | jump (target : LabelId) (value : Option Value)
  | failed (e : EvalError)

/-- The ending of an outcome, if it has one of these. -/
def ending? : EStateM.Result Halt (Machine ω) Flow → Option Ending
  | .ok (.jump l v) _ => some (.jump l v)
  | .error (.failed e) _ => some (.failed e)
  | _ => none

theorem ending_eq_jump {r : EStateM.Result Halt (Machine ω) Flow} {l : LabelId}
    {v : Option Value} : ending? r = some (.jump l v) ↔ ∃ m, r = .ok (.jump l v) m := by
  constructor
  · intro h
    cases r with
    | ok flow m =>
      cases flow with
      | jump l' v' =>
        cases h
        exact ⟨m, rfl⟩
      | _ => cases h
    | error e m => cases e <;> cases h
  · rintro ⟨m, rfl⟩
    rfl

namespace Exec

open Outcome Machine

variable {run : Runner ω} {k : Ending}

/-- A program in two parts has the ending of the first part or of the second. -/
theorem ending_andThen {α : Type} {x : Exec ω α} {f : α → Exec ω Flow} {m : Machine ω}
    (h : ending? ((x >>= f) m) = some k) :
    (∃ e m₁, x m = .error (.failed e) m₁ ∧ k = .failed e) ∨
      ∃ a m₁, x m = .ok a m₁ ∧ ending? (f a m₁) = some k := by
  have hbind : (x >>= f) m = EStateM.bind x f m := rfl
  rw [hbind] at h
  unfold EStateM.bind at h
  cases hx : x m with
  | ok a m₁ =>
    rw [hx] at h
    exact .inr ⟨a, m₁, rfl, h⟩
  | error e m₁ =>
    rw [hx] at h
    cases e with
    | failed e => exact .inl ⟨e, m₁, rfl, (Option.some.inj h).symm⟩
    | outOfFuel => cases h

theorem ending_failed {e : EvalError} {m : Machine ω}
    (h : ending? ((fail e : Exec ω Flow) m) = some k) : k = .failed e :=
  (Option.some.inj h).symm

/-! ## Statements in a row -/

/-- The calls that a row of statements makes. -/
inductive SequenceCalls (run : Runner ω) (body : List Node) :
    Nat → List Node → Option Descent → Machine ω → Call ω → Prop
  | head {fuel n rest d m} : SequenceCalls run body (fuel + 1) (n :: rest) d m ⟨n, d, m⟩
  | next {fuel n rest d m v m₁ c} (done : run n d m = .ok (.normal v) m₁)
      (later : SequenceCalls run body fuel rest none m₁ c) :
      SequenceCalls run body (fuel + 1) (n :: rest) d m c
  | again {fuel n rest d m l v m₁ c} (jumped : run n d m = .ok (.jump l v) m₁)
      (later : SequenceCalls run body fuel (placeOf l body) (some ⟨l, v⟩) m₁ c) :
      SequenceCalls run body (fuel + 1) (n :: rest) d m c

/-- The place of a label begins with a node that the label leads into. -/
theorem placeOf_eq_cons {l : LabelId} {body rest : List Node} {n : Node}
    (h : placeOf l body = n :: rest) :
    (∃ before, body = before ++ n :: rest) ∧ n.defines l = true := by
  unfold placeOf at h
  constructor
  · exact ⟨_, h ▸ (List.takeWhile_append_dropWhile).symm⟩
  · have hne : body.dropWhile (fun n => !n.defines l) ≠ [] := by rw [h]; nofun
    have hnot := List.head_dropWhile_not _ hne
    simpa [h] using hnot

namespace SequenceCalls

variable {body rest : List Node} {fuel : Nat} {d : Option Descent} {m : Machine ω} {c : Call ω}

theorem mem (h : SequenceCalls run body fuel rest d m c) (hrest : rest ⊆ body) : c.node ∈ body := by
  induction h with
  | head => exact hrest List.mem_cons_self
  | next _ _ ih => exact ih fun _ hn => hrest (List.mem_cons_of_mem _ hn)
  | again _ _ ih => exact ih (placeOf_subset _ _)

theorem stays (h : SequenceCalls run body fuel rest d m c) (hrun : ∀ n d, Keeping (run n d)) :
    m.Stays c.machine := by
  induction h with
  | head => exact .refl _
  | next done _ ih => exact ((hrun _ _).ok done).trans ih
  | again jumped _ ih => exact ((hrun _ _).ok jumped).trans ih

end SequenceCalls

theorem sequence_ending {body rest : List Node} {fuel : Nat} {d : Option Descent} {last : Value}
    {m : Machine ω} (h : ending? (sequence run body fuel rest d last m) = some k) :
    ∃ c, SequenceCalls run body fuel rest d m c ∧ ending? (c.result run) = some k := by
  induction fuel generalizing rest d last m with
  | zero => cases rest <;> cases h
  | succ fuel ih =>
    cases rest with
    | nil => cases h
    | cons n rest =>
      rcases ending_andThen h with ⟨e, m₁, hn, rfl⟩ | ⟨flow, m₁, hn, h⟩
      · exact ⟨_, .head, by rw [Call.result, hn]; rfl⟩
      · cases flow with
        | normal v =>
          obtain ⟨c, hc, hk⟩ := ih h
          exact ⟨c, .next hn hc, hk⟩
        | throw v => cases h
        | jump l v =>
          dsimp only at h
          cases hp : placeOf l body with
          | nil =>
            rw [hp] at h
            exact ⟨_, .head, by rw [Call.result, hn]; exact h⟩
          | cons p place =>
            rw [hp] at h
            obtain ⟨c, hc, hk⟩ := ih h
            rw [← hp] at hc
            exact ⟨c, .again hn hc, hk⟩

/-- A jump that leaves a row of statements has no place in it. -/
theorem sequence_jump {body rest : List Node} {fuel : Nat} {d : Option Descent} {last : Value}
    {m m' : Machine ω} {l : LabelId} {v : Option Value}
    (h : sequence run body fuel rest d last m = .ok (.jump l v) m') : placeOf l body = [] := by
  induction fuel generalizing rest d last m with
  | zero => cases rest <;> cases h
  | succ fuel ih =>
    cases rest with
    | nil => cases h
    | cons n rest =>
      obtain ⟨flow, m₁, hn, h⟩ := andThen_ok.mp h
      cases flow with
      | normal v => exact ih h
      | throw v => cases h
      | jump l' v' =>
        dsimp only at h
        cases hp : placeOf l' body with
        | nil =>
          rw [hp] at h
          cases h
          exact hp
        | cons p place =>
          rw [hp] at h
          exact ih h

theorem placeOf_eq_nil_iff {l : LabelId} {body : List Node} :
    placeOf l body = [] ↔ ∀ n ∈ body, n.defines l = false := by
  rw [placeOf, List.dropWhile_eq_nil_iff]
  simp

/-! ## Rounds of a loop -/

/-- The calls that a loop makes, all of its body. -/
inductive RoundsCalls (run : Runner ω) (body : Node) (leave next : Label) :
    Nat → Option Descent → Machine ω → Call ω → Prop
  | head {fuel d m} : RoundsCalls run body leave next (fuel + 1) d m ⟨body, d, m⟩
  | next {fuel d m v m₁ c} (done : run body d m = .ok (.normal v) m₁)
      (later : RoundsCalls run body leave next fuel none m₁ c) :
      RoundsCalls run body leave next (fuel + 1) d m c
  | continued {fuel d m l v m₁ c} (jumped : run body d m = .ok (.jump l v) m₁)
      (stays : l ≠ leave.id) (goesOn : l = next.id)
      (later : RoundsCalls run body leave next fuel none m₁ c) :
      RoundsCalls run body leave next (fuel + 1) d m c
  | again {fuel d m l v m₁ c} (jumped : run body d m = .ok (.jump l v) m₁)
      (stays : l ≠ leave.id) (other : l ≠ next.id) (inside : body.defines l = true)
      (later : RoundsCalls run body leave next fuel (some ⟨l, v⟩) m₁ c) :
      RoundsCalls run body leave next (fuel + 1) d m c

namespace RoundsCalls

variable {body : Node} {leave next : Label} {fuel : Nat} {d : Option Descent} {m : Machine ω}
  {c : Call ω}

theorem node_eq (h : RoundsCalls run body leave next fuel d m c) : c.node = body := by
  induction h with
  | head => rfl
  | next _ _ ih => exact ih
  | continued _ _ _ _ ih => exact ih
  | again _ _ _ _ _ ih => exact ih

theorem stays (h : RoundsCalls run body leave next fuel d m c)
    (hrun : ∀ n d, Keeping (run n d)) : m.Stays c.machine := by
  induction h with
  | head => exact .refl _
  | next done _ ih => exact ((hrun _ _).ok done).trans ih
  | continued jumped _ _ _ ih => exact ((hrun _ _).ok jumped).trans ih
  | again jumped _ _ _ _ ih => exact ((hrun _ _).ok jumped).trans ih

end RoundsCalls

theorem rounds_ending {body : Node} {leave next : Label} {fuel : Nat} {d : Option Descent}
    {m : Machine ω} (h : ending? (rounds run body leave next fuel d m) = some k) :
    ∃ c, RoundsCalls run body leave next fuel d m c ∧ ending? (c.result run) = some k := by
  induction fuel generalizing d m with
  | zero => cases h
  | succ fuel ih =>
    rcases ending_andThen h with ⟨e, m₁, hbody, rfl⟩ | ⟨flow, m₁, hbody, h⟩
    · exact ⟨_, .head, by rw [Call.result, hbody]; rfl⟩
    cases flow with
    | normal v =>
      obtain ⟨c, hc, hk⟩ := ih h
      exact ⟨c, .next hbody hc, hk⟩
    | throw v => cases h
    | jump l v =>
      dsimp only at h
      split at h
      · cases h
      next hleave =>
        split at h
        next hnext =>
          obtain ⟨c, hc, hk⟩ := ih h
          exact ⟨c, .continued hbody hleave hnext hc, hk⟩
        next hnext =>
          split at h
          next hinside =>
            obtain ⟨c, hc, hk⟩ := ih h
            exact ⟨c, .again hbody hleave hnext hinside hc, hk⟩
          next => exact ⟨_, .head, by rw [Call.result, hbody]; exact h⟩

/-- A jump that leaves a loop leads neither to its ends nor to a place in it. -/
theorem rounds_jump {body : Node} {leave next : Label} {fuel : Nat} {d : Option Descent}
    {m m' : Machine ω} {l : LabelId} {v : Option Value}
    (h : rounds run body leave next fuel d m = .ok (.jump l v) m') :
    l ≠ leave.id ∧ l ≠ next.id ∧ body.defines l = false := by
  induction fuel generalizing d m with
  | zero => cases h
  | succ fuel ih =>
    obtain ⟨flow, m₁, hbody, h⟩ := andThen_ok.mp h
    cases flow with
    | normal v => exact ih h
    | throw v => cases h
    | jump l' v' =>
      dsimp only at h
      split at h
      · cases h
      next hleave =>
        split at h
        · exact ih h
        next hnext =>
          split at h
          · exact ih h
          next hinside =>
            cases h
            exact ⟨hleave, hnext, Bool.eq_false_iff.mpr hinside⟩

/-! ## Arms of a switch -/

/-- The calls that a switch makes of its arms. -/
inductive ArmsCalls (run : Runner ω) (bodies : List Node) :
    Nat → Option Node → Option Descent → Machine ω → Call ω → Prop
  | head {fuel n d m} : ArmsCalls run bodies (fuel + 1) (some n) d m ⟨n, d, m⟩
  | again {fuel n d m l v m₁ c} (jumped : run n d m = .ok (.jump l v) m₁)
      (later : ArmsCalls run bodies fuel (bodies.find? (·.defines l)) (some ⟨l, v⟩) m₁ c) :
      ArmsCalls run bodies (fuel + 1) (some n) d m c

namespace ArmsCalls

variable {bodies : List Node} {fuel : Nat} {first : Option Node} {d : Option Descent}
  {m : Machine ω} {c : Call ω}

theorem mem (h : ArmsCalls run bodies fuel first d m c) (hfirst : ∀ n ∈ first, n ∈ bodies) :
    c.node ∈ bodies := by
  induction h with
  | head => exact hfirst _ rfl
  | again _ _ ih => exact ih fun _ hn => List.mem_of_find?_eq_some hn

theorem stays (h : ArmsCalls run bodies fuel first d m c) (hrun : ∀ n d, Keeping (run n d)) :
    m.Stays c.machine := by
  induction h with
  | head => exact .refl _
  | again jumped _ ih => exact ((hrun _ _).ok jumped).trans ih

end ArmsCalls

theorem arms_ending {bodies : List Node} {fuel : Nat} {first : Option Node} {d : Option Descent}
    {m : Machine ω} (h : ending? (arms run bodies fuel first d m) = some k) :
    ∃ c, ArmsCalls run bodies fuel first d m c ∧ ending? (c.result run) = some k := by
  induction fuel generalizing first d m with
  | zero => cases first <;> cases h
  | succ fuel ih =>
    cases first with
    | none => cases h
    | some n =>
      rcases ending_andThen h with ⟨e, m₁, hn, rfl⟩ | ⟨flow, m₁, hn, h⟩
      · exact ⟨_, .head, by rw [Call.result, hn]; rfl⟩
      cases flow with
      | normal v => cases h
      | throw v => cases h
      | jump l v =>
        dsimp only at h
        cases hp : bodies.find? (·.defines l) with
        | none =>
          rw [hp] at h
          exact ⟨_, .head, by rw [Call.result, hn]; exact h⟩
        | some n' =>
          rw [hp] at h
          obtain ⟨c, hc, hk⟩ := ih h
          rw [← hp] at hc
          exact ⟨c, .again hn hc, hk⟩

/-! ## Parts of a guarded region -/

/-- The calls that a guarded region makes; the one of a handler comes with the exception that the
handler has caught. -/
inductive RegionCalls (run : Runner ω) (body : Node) (handlers : List (Handler Node))
    (cleanup : Option Node) :
    Nat → Option Descent → Machine ω → Option (Handler Node × Value) → Call ω → Prop
  | entered {fuel d m n} (start : entrance body cleanup d = .cleanup n) :
      RegionCalls run body handlers cleanup (fuel + 1) d m none ⟨n, d, m⟩
  | body {fuel d m} (start : entrance body cleanup d = .body) :
      RegionCalls run body handlers cleanup (fuel + 1) d m none ⟨body, d, m⟩
  | handler {fuel d m v m₁ h} (start : entrance body cleanup d = .body)
      (threw : run body d m = .ok (.throw v) m₁)
      (found : handlers.find? (v.isInstanceOf ·.kind) = some h) :
      RegionCalls run body handlers cleanup (fuel + 1) d m (some (h, v))
        ⟨h.body, none, h.enter v m₁⟩
  | cleaning {fuel d m flow m₁ flow' m₂ n} (start : entrance body cleanup d = .body)
      (ended : run body d m = .ok flow m₁)
      (dispatched : dispatch run handlers flow m₁ = .ok flow' m₂)
      (leaves : ∀ l v, flow' = .jump l v → regionDefines l body handlers cleanup = false)
      (present : cleanup = some n) :
      RegionCalls run body handlers cleanup (fuel + 1) d m none ⟨n, none, m₂⟩
  | again {fuel d m flow m₁ l v m₂ entered c} (start : entrance body cleanup d = .body)
      (ended : run body d m = .ok flow m₁)
      (dispatched : dispatch run handlers flow m₁ = .ok (.jump l v) m₂)
      (inside : regionDefines l body handlers cleanup = true)
      (later : RegionCalls run body handlers cleanup fuel (some ⟨l, v⟩) m₂ entered c) :
      RegionCalls run body handlers cleanup (fuel + 1) d m entered c

/-- The machine of a call: it has what the first one had, and handles what was caught since. -/
structure Arrives (caught : List (Handler Node × Value)) (m m' : Machine ω) : Prop where
  host : m'.host = m.host
  stepLimit : m'.stepLimit = m.stepLimit
  handling : m'.handling = caught.map Prod.snd ++ m.handling
  env : m.env.Grows m'.env
  heap : m.heap.Evolves m'.heap

namespace Arrives

variable {caught caught' : List (Handler Node × Value)} {m m' m'' : Machine ω}

theorem of_stays (h : m.Stays m') : Arrives [] m m' :=
  ⟨h.host, h.stepLimit, h.handling, h.env, h.heap⟩

theorem trans (h : Arrives caught m m') (h' : Arrives caught' m' m'') :
    Arrives (caught' ++ caught) m m'' where
  host := h'.host.trans h.host
  stepLimit := h'.stepLimit.trans h.stepLimit
  handling := by rw [h'.handling, h.handling, List.map_append, List.append_assoc]
  env id hid := h'.env id (h.env id hid)
  heap := h.heap.trans h'.heap

theorem enter (h : Handler Node) (v : Value) (m : Machine ω) : Arrives [(h, v)] m (h.enter v m) :=
  ⟨h.host_enter v m, h.stepLimit_enter v m, h.handling_enter v m, h.env_enter v m,
    h.heap_enter v m ▸ .refl _⟩

end Arrives

namespace RegionCalls

variable {body : Node} {handlers : List (Handler Node)} {cleanup : Option Node} {fuel : Nat}
  {d : Option Descent} {m : Machine ω} {entered : Option (Handler Node × Value)} {c : Call ω}

theorem arrives (h : RegionCalls run body handlers cleanup fuel d m entered c)
    (hrun : ∀ n d, Keeping (run n d)) : Arrives entered.toList m c.machine := by
  induction h with
  | entered => exact .of_stays (.refl _)
  | body => exact .of_stays (.refl _)
  | handler start threw => exact (Arrives.of_stays ((hrun _ _).ok threw)).trans (.enter _ _ _)
  | cleaning start ended dispatched =>
    exact .of_stays (((hrun _ _).ok ended).trans ((dispatch_keeping hrun _ _).ok dispatched))
  | @again fuel d m flow m₁ l v m₂ entered c start ended dispatched inside later ih =>
    have hstays := ((hrun _ _).ok ended).trans ((dispatch_keeping hrun _ _).ok dispatched)
    simpa using (Arrives.of_stays hstays).trans ih

/-- A call is of the body or the cleanup, or of a handler, which is in the list then and has its
variable. -/
theorem node_eq (h : RegionCalls run body handlers cleanup fuel d m entered c) :
    (entered = none ∧ (c.node = body ∨ cleanup = some c.node)) ∨
      ∃ h v, entered = some (h, v) ∧ h ∈ handlers ∧ c.node = h.body ∧
        ∀ s, h.binding = some s → c.machine.env.contains s.id = true := by
  induction h with
  | entered start => exact .inl ⟨rfl, .inr (entrance_cleanup start).1⟩
  | body => exact .inl ⟨rfl, .inl rfl⟩
  | handler start threw found =>
    exact .inr ⟨_, _, rfl, List.mem_of_find?_eq_some found, rfl,
      fun s hs => Handler.contains_enter _ _ _ hs⟩
  | cleaning _ _ _ _ present => exact .inl ⟨rfl, .inr present⟩
  | again _ _ _ _ _ ih => exact ih

end RegionCalls

/-- What a handler ends with, its body has ended with. -/
theorem handle_ending {h : Handler Node} {v : Value} {m : Machine ω}
    (hk : ending? (handle run h v m) = some k) :
    ending? (run h.body none (h.enter v m)) = some k := by
  rw [handle_eq] at hk
  cases hr : run h.body none (h.enter v m) with
  | ok flow m' =>
    rw [hr] at hk
    cases flow <;> exact hk
  | error e m' =>
    rw [hr] at hk
    cases e <;> exact hk

theorem dispatch_ending {handlers : List (Handler Node)} {flow : Flow} {m : Machine ω}
    (hk : ending? (dispatch run handlers flow m) = some k) :
    (∃ l v, flow = .jump l v ∧ k = .jump l v) ∨
      ∃ v h, flow = .throw v ∧ handlers.find? (v.isInstanceOf ·.kind) = some h ∧
        ending? (handle run h v m) = some k := by
  cases flow with
  | normal v => cases hk
  | jump l v => exact .inl ⟨l, v, rfl, (Option.some.inj hk).symm⟩
  | throw v =>
    unfold dispatch at hk
    cases hf : handlers.find? (v.isInstanceOf ·.kind) with
    | none =>
      simp only [hf] at hk
      cases hk
    | some h =>
      simp only [hf] at hk
      exact .inr ⟨v, h, rfl, hf, hk⟩

/-- A pending jump, or what the cleanup ends with. -/
theorem cleaning_ending {cleanup : Option Node} {pending : Flow} {m : Machine ω}
    (hk : ending? (cleaning run cleanup pending m) = some k) :
    (∃ l v, pending = .jump l v ∧ k = .jump l v) ∨
      ∃ n, cleanup = some n ∧ ending? (run n none m) = some k := by
  have hpending : ∀ {m : Machine ω}, ending? ((pure pending : Exec ω Flow) m) = some k →
      ∃ l v, pending = .jump l v ∧ k = .jump l v := by
    intro m hk
    cases pending with
    | normal v => cases hk
    | throw v => cases hk
    | jump l v => exact ⟨l, v, rfl, (Option.some.inj hk).symm⟩
  cases cleanup with
  | none => exact .inl (hpending hk)
  | some n =>
    rcases ending_andThen hk with ⟨e, m₁, hn, rfl⟩ | ⟨flow, m₁, hn, hk⟩
    · exact .inr ⟨n, rfl, by rw [hn]; rfl⟩
    · cases flow with
      | normal v => exact .inl (hpending hk)
      | throw v => cases hk
      | jump l v => exact .inr ⟨n, rfl, by rw [hn]; exact hk⟩

/-- A region ends with a jump or a cause if a part of it does, or if a place in a handler is
sought. -/
theorem region_ending {body : Node} {handlers : List (Handler Node)} {cleanup : Option Node}
    {fuel : Nat} {d : Option Descent} {m : Machine ω}
    (h : ending? (region run body handlers cleanup fuel d m) = some k) :
    (∃ l, k = .failed (.jumpIntoHandler l)) ∨
      ∃ entered c, RegionCalls run body handlers cleanup fuel d m entered c ∧
        ending? (c.result run) = some k := by
  induction fuel generalizing d m with
  | zero => cases h
  | succ fuel ih =>
    unfold region at h
    cases start : entrance body cleanup d with
    | handler l =>
      rw [start] at h
      exact .inl ⟨l, ending_failed h⟩
    | cleanup n =>
      rw [start] at h
      exact .inr ⟨none, _, .entered start, h⟩
    | body =>
      rw [start] at h
      rcases ending_andThen h with ⟨e, m₁, hbody, rfl⟩ | ⟨flow, m₁, hbody, h⟩
      · exact .inr ⟨none, _, .body start, by rw [Call.result, hbody]; rfl⟩
      -- The body, or the handler of its exception, has the ending that they have together.
      have hpart : ending? (dispatch run handlers flow m₁) = some k →
          ∃ entered c, RegionCalls run body handlers cleanup (fuel + 1) d m entered c ∧
            ending? (c.result run) = some k := by
        intro hk
        rcases dispatch_ending hk with ⟨l, v, rfl, rfl⟩ | ⟨v, hr, rfl, hfound, hk⟩
        · exact ⟨none, _, .body start, by rw [Call.result, hbody]; rfl⟩
        · exact ⟨some (hr, v), _, .handler start hbody hfound, handle_ending hk⟩
      rcases ending_andThen h with ⟨e, m₂, hd, rfl⟩ | ⟨flow', m₂, hd, h⟩
      · exact .inr (hpart (by rw [hd]; rfl))
      have hclean : (∀ l v, flow' = .jump l v → regionDefines l body handlers cleanup = false) →
          ending? (cleaning run cleanup flow' m₂) = some k →
          ∃ entered c, RegionCalls run body handlers cleanup (fuel + 1) d m entered c ∧
            ending? (c.result run) = some k := by
        intro hleaves hk
        rcases cleaning_ending hk with ⟨l, v, rfl, rfl⟩ | ⟨n, hn, hk⟩
        · exact hpart (by rw [hd]; rfl)
        · exact ⟨none, _, .cleaning start hbody hd hleaves hn, hk⟩
      cases flow' with
      | normal v =>
        refine .inr (hclean (fun l v' hl => ?_) h)
        cases hl
      | throw v =>
        refine .inr (hclean (fun l v' hl => ?_) h)
        cases hl
      | jump l v =>
        dsimp only at h
        split at h
        next hinside =>
          rcases ih h with hinto | ⟨entered, c, hc, hk⟩
          · exact .inl hinto
          · exact .inr ⟨entered, c, .again start hbody hd hinside hc, hk⟩
        next hinside =>
          refine .inr (hclean (fun l' v' hl => ?_) h)
          cases hl
          exact Bool.eq_false_iff.mpr hinside

end Exec

end StructuredFlow
