import StructuredFlow.Proofs.EmulatedParts
import StructuredFlow.Proofs.NodeReplace

/-
  Execution under a map of nodes. If the map keeps the labels that lead into nodes, waiting nodes go
  on the same after it (`Waiting.resume_map`), and a call begins the same if the map changes its node
  only below (`Call.begin_map`). An execution whose calls all begin the same after the map ends the
  same, in as many steps (`Turn.ends_map_iff`). Only the calls count that are made in it
  (`Turn.Makes`), whether or not it comes to an end.
-/

namespace StructuredFlow

open Exec

variable {ω : Type} {f : Node → Node}

/-! ## Maps of nodes -/

def Call.map (f : Node → Node) (c : Call ω) : Call ω :=
  ⟨f c.node, c.descent, c.machine⟩

def Waiting.map (f : Node → Node) : Waiting → Waiting
  | row body rest => row (body.map f) (rest.map f)
  | rounds body leave next => rounds (f body) leave next
  | arms bodies => arms (bodies.map f)
  | guarded body handlers cleanup =>
    guarded (f body) (handlers.map fun h => ⟨h.kind, h.binding, f h.body⟩) (cleanup.map f)
  | handling body handlers cleanup =>
    handling (f body) (handlers.map fun h => ⟨h.kind, h.binding, f h.body⟩) (cleanup.map f)
  | cleaning pending => cleaning pending

def Turn.map (f : Node → Node) : Turn ω → Turn ω
  | done r => done r
  | tail c => tail (c.map f)
  | call c w => call (c.map f) (w.map f)

/-- The same labels lead into a node and into what it is mapped to. -/
def Node.KeepsPlaces (f : Node → Node) : Prop :=
  ∀ n l, (f n).defines l = n.defines l

namespace Node.KeepsPlaces

variable (h : KeepsPlaces f)
include h

theorem placeOf_map (l : LabelId) (body : List Node) :
    placeOf l (body.map f) = (placeOf l body).map f := by
  rw [placeOf, placeOf, List.dropWhile_map]
  simp only [Function.comp_def, h _ l]

theorem find?_map (l : LabelId) (bodies : List Node) :
    (bodies.map f).find? (·.defines l) = (bodies.find? (·.defines l)).map f := by
  rw [List.find?_map]
  simp only [Function.comp_def, h _ l]

end Node.KeepsPlaces

namespace Turn

theorem reading_map {α : Type} (x : EStateM.Result EvalError (Machine ω) α)
    (next : α → Machine ω → Turn ω) :
    (reading x next).map f = reading x fun a m => (next a m).map f := by
  cases x with
  | ok a m => rfl
  | error e m => cases e <;> rfl

theorem row_map (body rest : List Node) (d : Option Descent) (last : Value) (m : Machine ω) :
    (row body rest d last m).map f = row (body.map f) (rest.map f) d last m := by
  cases rest <;> rfl

theorem arm_map (bodies : List Node) (body : Option Node) (d : Option Descent) (m : Machine ω) :
    (arm bodies body d m).map f = arm (bodies.map f) (body.map f) d m := by
  cases body <;> rfl

theorem clean_map (cleanup : Option Node) (pending : Flow) (m : Machine ω) :
    (clean cleanup pending m).map f = clean (cleanup.map f) pending m := by
  cases cleanup <;> rfl

section

variable (h : Node.KeepsPlaces f) (body : Node) (handlers : List (Handler Node))
  (cleanup : Option Node)
include h

theorem region_map (d : Option Descent) (m : Machine ω) :
    (region body handlers cleanup d m).map f =
      region (f body) (handlers.map fun h => ⟨h.kind, h.binding, f h.body⟩) (cleanup.map f)
        d m := by
  cases d with
  | none => rfl
  | some s =>
    unfold region entrance
    dsimp only
    rw [h]
    by_cases hbody : body.defines s.target = true
    · rw [if_pos hbody, if_pos hbody]
      rfl
    · rw [if_neg hbody, if_neg hbody]
      cases cleanup with
      | none => rfl
      | some c =>
        rw [Option.map_some, Option.filter_some, Option.filter_some, h]
        by_cases hc : c.defines s.target = true
        · rw [if_pos hc, if_pos hc]
          rfl
        · rw [if_neg hc, if_neg hc]
          rfl

theorem leaveRegion_map (flow : Flow) (m : Machine ω) :
    (leaveRegion body handlers cleanup flow m).map f =
      leaveRegion (f body) (handlers.map fun h => ⟨h.kind, h.binding, f h.body⟩) (cleanup.map f)
        flow m := by
  cases flow with
  | normal v => exact clean_map _ _ _
  | throw v => exact clean_map _ _ _
  | jump l v =>
    have hdefines : regionDefines l (f body) (handlers.map fun h => ⟨h.kind, h.binding, f h.body⟩)
        (cleanup.map f) = regionDefines l body handlers cleanup := by
      simp [regionDefines, h _ l, List.any_map, Option.any_map, Function.comp_def]
    dsimp only [leaveRegion]
    rw [hdefines]
    split
    · exact region_map h _ _ _ _ _
    · exact clean_map _ _ _

end

end Turn

open Turn

/-- A waiting node goes on the same after the map. -/
theorem Waiting.resume_map (h : Node.KeepsPlaces f) (w : Waiting) (r : Report ω) :
    (w.map f).resume r = (w.resume r).map f := by
  cases r with
  | error e m => cases w <;> rfl
  | ok flow m =>
    cases w with
    | row body rest =>
      cases flow with
      | normal v => exact (row_map body rest none v m).symm
      | throw v => rfl
      | jump l v =>
        dsimp only [Waiting.map, Waiting.resume]
        rw [h.placeOf_map]
        cases placeOf l body with
        | nil => rfl
        | cons n place => rfl
    | rounds body leave next =>
      cases flow with
      | normal v => rfl
      | throw v => rfl
      | jump l v =>
        dsimp only [Waiting.map, Waiting.resume]
        rw [h]
        split
        · rfl
        · split
          · rfl
          · split <;> rfl
    | arms bodies =>
      cases flow with
      | normal v => rfl
      | throw v => rfl
      | jump l v =>
        dsimp only [Waiting.map, Waiting.resume]
        rw [h.find?_map]
        cases bodies.find? (·.defines l) <;> rfl
    | guarded body handlers cleanup =>
      cases flow with
      | normal v => exact (clean_map cleanup (.normal v) m).symm
      | jump l v => exact (leaveRegion_map h body handlers cleanup (.jump l v) m).symm
      | throw v =>
        dsimp only [Waiting.map, Waiting.resume]
        rw [List.find?_map]
        simp only [Function.comp_def]
        cases handlers.find? (v.isInstanceOf ·.kind) with
        | none => exact (clean_map cleanup (.throw v) m).symm
        | some k => rfl
    | handling body handlers cleanup => exact (leaveRegion_map h body handlers cleanup flow _).symm
    | cleaning pending => cases flow <;> rfl

/-- A call begins the same after the map if the map only changes something below the node. -/
theorem Call.begin_map (h : Node.KeepsPlaces f) {c : Call ω}
    (hc : f c.node = c.node.mapChildren f) : (c.map f).begin = c.begin.map f := by
  obtain ⟨n, d, m⟩ := c
  show Call.begin ⟨f n, d, m⟩ = _
  rw [show f n = n.mapChildren f from hc]
  clear hc
  cases n with
  | nop => rfl
  | eval e =>
    dsimp only [Node.mapChildren, Call.begin]
    rw [reading_map]
    rfl
  | assign target value =>
    dsimp only [Node.mapChildren, Call.begin]
    rw [reading_map]
    rfl
  | block locals body =>
    cases d with
    | none => exact (row_map body body none .void _).symm
    | some s =>
      refine Eq.trans ?_ (row_map body (placeOf s.target body) (some s) .void _).symm
      rw [← h.placeOf_map]
      rfl
  | branch test yes no =>
    cases d with
    | some s =>
      dsimp only [Node.mapChildren, Call.begin]
      rw [h]
      split <;> rfl
    | none =>
      refine Eq.trans ?_ (reading_map _ _).symm
      refine congrArg (reading _) (funext fun v => funext fun m => ?_)
      cases v with
      | bool holds => cases holds <;> rfl
      | _ => rfl
  | loop body leave next => rfl
  | label target default => rfl
  | goto target value =>
    cases value with
    | none => rfl
    | some e =>
      dsimp only [Node.mapChildren, Call.begin]
      rw [reading_map]
      rfl
  | switch value arms default =>
    have hbodies : (arms.map fun a => (⟨a.values, f a.body⟩ : Arm Node)).map Arm.body ++
        (default.map f).toList = (arms.map Arm.body ++ default.toList).map f := by
      cases default <;> simp
    cases d with
    | some s =>
      dsimp only [Node.mapChildren, Call.begin]
      rw [hbodies, h.find?_map, arm_map]
    | none =>
      have harms : List.Forall₂ (fun a a' : Arm Node => a'.values = a.values ∧ a'.body = f a.body)
          arms (arms.map fun a => ⟨a.values, f a.body⟩) :=
        List.forall₂_map_right_iff.mpr (List.forall₂_same.mpr fun a _ => ⟨rfl, rfl⟩)
      have hchoice := choice_alike (Q := fun c c' => c' = f c) harms value m
      dsimp only [Node.mapChildren, Call.begin]
      rw [hbodies, reading_map]
      generalize (value.eval >>= fun v => select v arms) m = x at hchoice ⊢
      generalize (value.eval >>= fun v => select v _) m = x' at hchoice ⊢
      cases hchoice with
      | @error e m₁ => cases e <;> rfl
      | ok hfound =>
        refine Eq.trans ?_ (arm_map _ _ _ _).symm
        cases hfound with
        | none => rfl
        | some hc =>
          subst hc
          rfl
  | attempt body handlers cleanup => exact (region_map h _ _ _ _ _).symm
  | throw e =>
    dsimp only [Node.mapChildren, Call.begin]
    rw [reading_map]
    rfl
  | rethrow =>
    dsimp only [Node.mapChildren, Call.begin]
    split <;> rfl

namespace Turn

/-- The calls that are made in the execution of a turn, whether or not it comes to an end. -/
inductive Makes : Turn ω → Call ω → Prop
  | tail (c) : Makes (.tail c) c
  | insideTail {c c'} (inner : Makes c.begin c') : Makes (.tail c) c'
  | call (c w) : Makes (.call c w) c
  | insideCall {c w c'} (inner : Makes c.begin c') : Makes (.call c w) c'
  | later {c w k r c'} (ended : c.begin.Ends k r) (later : Makes (w.resume r) c') :
      Makes (.call c w) c'

variable {t : Turn ω} {k : Nat} {r : Report ω}

/-- An execution whose calls begin the same after a map of nodes ends the same after it, in as many
steps. -/
theorem ends_map_iff (h : Node.KeepsPlaces f)
    (hbegin : ∀ c, t.Makes c → (c.map f).begin = c.begin.map f) :
    (t.map f).Ends k r ↔ t.Ends k r := by
  constructor
  · intro hends
    induction k using Nat.strong_induction_on generalizing t r with
    | _ k ih =>
      cases t with
      | done r' =>
        cases hends
        exact .done
      | tail c =>
        cases hends with
        | tail inner =>
          rw [hbegin c (.tail c)] at inner
          exact .tail (ih _ (by omega) (fun c' hc' => hbegin c' (.insideTail hc')) inner)
      | call c w =>
        cases hends with
        | call inner later =>
          rw [hbegin c (.call c w)] at inner
          have hinner := ih _ (by omega) (fun c' hc' => hbegin c' (.insideCall hc')) inner
          rw [Waiting.resume_map h] at later
          exact .call hinner (ih _ (by omega) (fun c' hc' => hbegin c' (.later hinner hc')) later)
  · intro hends
    induction hends with
    | done => exact .done
    | @tail c k r inner ih =>
      refine .tail ?_
      rw [hbegin c (.tail c)]
      exact ih fun c' hc' => hbegin c' (.insideTail hc')
    | @call c w k r₁ k' r inner later ihinner ihlater =>
      have hinner : (c.map f).begin.Ends k r₁ := by
        rw [hbegin c (.call c w)]
        exact ihinner fun c' hc' => hbegin c' (.insideCall hc')
      have hlater : ((w.map f).resume r₁).Ends k' r := by
        rw [Waiting.resume_map h]
        exact ihlater fun c' hc' => hbegin c' (.later inner hc')
      exact .call hinner hlater

end Turn

end StructuredFlow
