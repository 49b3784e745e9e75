import StructuredFlow.Proofs.AbruptEnds
import StructuredFlow.Proofs.EvaluationFails
import StructuredFlow.Proofs.Traces

/-
  The way down to a place. A node in which a place is sought hands the search on to the first of its
  parts that has the place in it (`Node.toward`): that is the very next node to be started, and by
  then the locals of the node are declared and nothing else is done (`Node.begin_toward`,
  `Node.calls_toward`). So a descent is described by the nodes that it passes (`Node.Way`), whatever
  they are; what it does to the machine is counted steps and declared locals (`Node.past`), and it
  may be stopped on the way by the step limit only (`Node.Way.descends`).
-/

namespace StructuredFlow

variable {ω : Type}

open Exec Outcome Machine

/-! ## The step of a node -/

/-- With a step left it is counted. -/
theorem Exec.tick_eq {m : Machine ω} (h : 0 < m.stepsLeft) :
    tick m = .ok () { m with steps := m.steps + 1 } := by
  unfold stepsLeft at h
  exact if_neg (Nat.not_lt.mpr (Nat.lt_of_sub_pos h))

/-- At the step limit no node is started. -/
theorem Node.execWithin_limited {m : Machine ω} (n : Node) (d : Option Descent) (fuel : Nat)
    (h : m.stepsLeft = 0) :
    n.execWithin (fuel + 1) d m =
      .error (.failed (.stepLimit m.stepLimit)) { m with steps := m.steps + 1 } := by
  refine andThen_error.mpr (.inl (if_pos ?_))
  unfold stepsLeft at h
  exact Nat.lt_succ_of_le (Nat.sub_eq_zero_iff_le.mp h)

/-! ## Where a search goes on -/

namespace Node

/-- The part of a node that a descent goes on with: the first one with the label's place in it. -/
def toward (l : LabelId) (n : Node) : Option Node :=
  n.parts.find? (·.defines l)

variable {n c last : Node} {l : LabelId} {s : Descent} {m m₁ : Machine ω}

theorem mem_of_toward (h : n.toward l = some c) : c ∈ n.parts ∧ c.defines l = true :=
  ⟨List.mem_of_find?_eq_some h, List.find?_some (p := fun c => Node.defines l c) h⟩

theorem placeOf_toward {locals : List Symbol} {body : List Node}
    (h : (block locals body).toward l = some c) : ∃ rest, placeOf l body = c :: rest := by
  have hhead : (placeOf l body).head? = some c :=
    (List.find?_eq_head?_dropWhile_not _ body).symm.trans h
  exact List.head?_eq_some_iff.mp hhead

theorem sought_toward {test : Expr} {yes no : Node} (h : (branch test yes no).toward l = some c) :
    (if yes.defines l then yes else no) = c := by
  unfold toward parts at h
  rw [List.find?_cons] at h
  split at h
  next hyes => exact (if_pos hyes).trans (Option.some.inj h)
  next hyes =>
    have hno := List.mem_singleton.mp (List.mem_of_find?_eq_some h)
    exact (if_neg (Bool.eq_false_iff.mp hyes)).trans hno.symm

theorem entrance_toward {body : Node} {handlers : List (Handler Node)} {cleanup : Option Node}
    (h : (attempt body handlers cleanup).toward s.target = some c) :
    entrance body cleanup (some s) = .body ∧ c = body ∨
      entrance body cleanup (some s) = .cleanup c := by
  unfold toward parts at h
  rw [List.find?_cons] at h
  unfold entrance
  dsimp only
  split at h
  next hbody =>
    obtain rfl := Option.some.inj h
    exact .inl ⟨if_pos hbody, rfl⟩
  next hbody =>
    rw [if_neg (Bool.eq_false_iff.mp hbody)]
    have hfilter : cleanup.filter (·.defines s.target) = some c := by
      have hmem := Option.mem_toList.mp (List.mem_of_find?_eq_some h)
      exact Option.filter_eq_some_iff.mpr ⟨hmem, List.find?_some (p := fun c => defines _ c) h⟩
    exact .inr (by rw [hfilter])

theorem entrance_of_toward_none {body : Node} {handlers : List (Handler Node)}
    {cleanup : Option Node} (h : (attempt body handlers cleanup).toward s.target = none) :
    entrance body cleanup (some s) = .handler s.target := by
  unfold toward parts at h
  obtain ⟨hbody, hcleanup⟩ := List.forall_mem_cons.mp (List.find?_eq_none.mp h)
  unfold entrance
  dsimp only
  rw [if_neg hbody]
  have hfilter : cleanup.filter (·.defines s.target) = none :=
    Option.filter_eq_none_iff.mpr fun n hn => hcleanup n (Option.mem_toList.mpr hn)
  rw [hfilter]

end Node

/-- The first call starts the second one before anything else: it goes on as that one, or waits for
it, and then does nothing about a cause that stops that one. -/
inductive Call.Passes (c c' : Call ω) : Prop
  | goes (first : c.begin = .tail c')
  | waits {w} (first : c.begin = .call c' w)
      (stops : ∀ e (m : Machine ω), w.resume (.error e m) = .done (.error e m))

namespace Node

variable {n c last : Node} {l : LabelId} {s : Descent} {m m₁ : Machine ω}

/-- A node passes the search on; its locals are declared then. -/
theorem begin_toward (h : n.toward s.target = some c) (m : Machine ω) :
    Call.Passes ⟨n, some s, m⟩ ⟨c, some s, m.declare n.locals⟩ := by
  cases n with
  | block locals body =>
    obtain ⟨rest, hrest⟩ := placeOf_toward h
    refine .waits (w := .row body rest) ?_ fun _ _ => rfl
    show Turn.row body (placeOf s.target body) _ _ _ = _
    rw [hrest]
    rfl
  | branch test yes no => exact .goes (by rw [← sought_toward h]; rfl)
  | loop body leave next =>
    obtain rfl := List.mem_singleton.mp (mem_of_toward h).1
    exact .waits (w := .rounds c leave next) rfl fun _ _ => rfl
  | switch value arms default =>
    refine .waits (w := .arms (arms.map Arm.body ++ default.toList)) ?_ fun _ _ => rfl
    show Turn.arm _ ((switch value arms default).toward s.target) _ _ = _
    rw [h]
    rfl
  | attempt body handlers cleanup =>
    rcases entrance_toward h with ⟨hbody, rfl⟩ | hcleanup
    · refine .waits (w := .guarded c handlers cleanup) ?_ fun _ _ => rfl
      show Turn.region c handlers cleanup (some s) m = _
      rw [Turn.region, hbody]
      rfl
    · refine .goes ?_
      show Turn.region body handlers cleanup (some s) m = _
      rw [Turn.region, hcleanup]
      rfl
  | _ => cases h

/-- In a limited execution it does so too, once its step is counted. -/
theorem calls_toward (h : n.toward s.target = some c) {fuel : Nat} (hfuel : 0 < fuel)
    (ticked : tick m = .ok () m₁) :
    Calls (fuel + 1) n (some s) m none ⟨c, some s, m₁.declare n.locals⟩ := by
  obtain ⟨fuel, rfl⟩ := Nat.exists_eq_add_of_lt hfuel
  cases n with
  | block locals body =>
    obtain ⟨rest, hrest⟩ := placeOf_toward h
    refine .block ticked ?_
    rw [opening, hrest]
    exact .head
  | branch test yes no =>
    obtain rfl := sought_toward h
    exact .sought ticked
  | loop body leave next =>
    obtain rfl := List.mem_singleton.mp (mem_of_toward h).1
    exact .loop ticked .head
  | switch value arms default =>
    refine .armSought ticked ?_
    show ArmsCalls _ _ _ ((switch value arms default).toward s.target) _ _ _
    rw [h]
    exact .head
  | attempt body handlers cleanup =>
    rcases entrance_toward h with ⟨hbody, rfl⟩ | hcleanup
    · exact .attempt ticked (.body hbody)
    · exact .attempt ticked (.entered hcleanup)
  | _ => cases h

/-- A node that passes the search on evaluates nothing of its own. -/
theorem not_evaluates_of_toward (h : n.toward s.target = some c) (m : Machine ω) (e : Expr)
    (m' : Machine ω) : ¬n.Evaluates (some s) m e m' := by
  intro he
  cases he <;> cases h

/-! ## Ways -/

/-- A search for the label in the node passes these nodes, from the outside in, before it comes to
the last one. -/
inductive Way (l : LabelId) : Node → List Node → Node → Prop
  | here {n : Node} : Way l n [] n
  | down {n c last : Node} {way : List Node} (next : n.toward l = some c)
      (below : Way l c way last) : Way l n (n :: way) last

/-- The machine when a search has passed the nodes. -/
def past (way : List Node) (m : Machine ω) : Machine ω :=
  { m.declare (way.flatMap locals) with steps := m.steps + way.length }

end Node

namespace Descent

/-- The calls of a search that passes the nodes, the first one in the machine. -/
def calls (s : Descent) : List Node → Machine ω → List (Call ω)
  | [], _ => []
  | n :: way, m => ⟨n, some s, m⟩ :: s.calls way (m.declare n.locals)

/-- The last call is in a machine with all the locals on the way. -/
theorem getLast_calls (s : Descent) (way : List Node) (last : Node) (m : Machine ω)
    (h : s.calls (way ++ [last]) m ≠ []) :
    (s.calls (way ++ [last]) m).getLast h = ⟨last, some s, m.declare (way.flatMap Node.locals)⟩ := by
  induction way generalizing m with
  | nil => rfl
  | cons n way ih =>
    have hne : s.calls (way ++ [last]) (m.declare n.locals) ≠ [] := by
      cases way <;> exact List.cons_ne_nil _ _
    refine (List.getLast_cons hne).trans ?_
    rw [ih, List.flatMap_cons, declare_append]

end Descent

namespace Node

variable {n c last : Node} {l : LabelId} {s : Descent} {m m₁ : Machine ω} {way : List Node}

theorem past_cons (n : Node) (way : List Node) (m : Machine ω) :
    past (n :: way) m = past way ({ m with steps := m.steps + 1 }.declare n.locals) := by
  unfold past declare
  rw [List.flatMap_cons, List.foldl_append, List.length_cons, ← Nat.add_assoc,
    Nat.add_right_comm]

theorem past_stepsLeft (way : List Node) (m : Machine ω) :
    (past way m).stepsLeft = m.stepsLeft - way.length :=
  (Nat.sub_sub ..).symm

namespace Way

theorem snoc (h : Way l n way last) (next : last.toward l = some c) :
    Way l n (way ++ [last]) c := by
  induction h with
  | here => exact .down next .here
  | down first _ ih => exact .down first (ih next)

/-- A search that stops early has passed the first nodes of the way. -/
theorem take (h : Way l n way last) {k : Nat} (hk : k ≤ way.length) :
    ∃ p, Way l n (way.take k) p := by
  induction h generalizing k with
  | @here n =>
    rw [List.take_nil]
    exact ⟨n, .here⟩
  | down next _ ih =>
    cases k with
    | zero => exact ⟨_, .here⟩
    | succ k =>
      obtain ⟨p, hp⟩ := ih (Nat.le_of_succ_le_succ hk)
      exact ⟨p, .down next hp⟩

theorem toward_of_mem (h : Way l n way last) {p : Node} (hp : p ∈ way) :
    ∃ c, p.toward l = some c := by
  induction h with
  | here => exact absurd hp List.not_mem_nil
  | down next _ ih =>
    rcases List.mem_cons.mp hp with rfl | hp
    · exact ⟨_, next⟩
    · exact ih hp

theorem passes (h : Way s.target n way last) (m : Machine ω) :
    (s.calls (way ++ [last]) m).IsChain Call.Passes := by
  induction h generalizing m with
  | here => exact .singleton _
  | @down n c last way next below ih =>
    have hbelow := ih (m.declare n.locals)
    cases below with
    | here => exact .cons_cons (begin_toward next m) hbelow
    | down => exact .cons_cons (begin_toward next m) hbelow

/-- A limited execution with steps for the way visits its last node. -/
theorem visits (h : Way s.target n way last) (fuel : Nat) (hsteps : way.length ≤ m.stepsLeft) :
    Visits (fuel + 1 + way.length) ⟨n, some s, m⟩ (fuel + 1) way.reverse []
      ⟨last, some s, past way m⟩ := by
  induction h generalizing m with
  | here => exact .here
  | @down n c last way next _ ih =>
    have ticked := tick_eq (Nat.lt_of_lt_of_le (Nat.succ_pos _) hsteps)
    have hleft : way.length ≤ ({ m with steps := m.steps + 1 }.declare n.locals).stepsLeft :=
      Nat.le_sub_one_of_lt hsteps
    rw [past_cons, List.reverse_cons]
    have hfuel : 0 < fuel + 1 + way.length := by omega
    exact .inside (c := ⟨n, some s, m⟩) (calls_toward next hfuel ticked) (ih hleft)

end Way

end Node

/-! ## Executions along a way -/

namespace Call

variable {c : Call ω} {cs calls : List (Call ω)} {r : Report ω}

/-- Calls that start each other are those that an execution of the first one begins with. -/
theorem prefix_of_passes (h : (c :: cs).IsChain Call.Passes) (ht : (Turn.tail c).Traces calls r) :
    c :: cs <+: calls := by
  induction cs generalizing c calls r with
  | nil =>
    cases ht with
    | tail => exact List.prefix_append [c] _
  | cons c' cs ih =>
    obtain ⟨hpasses, hrest⟩ := List.isChain_cons_cons.mp h
    cases ht with
    | tail inner =>
      refine (List.prefix_cons_inj c).mpr ?_
      cases hpasses with
      | goes first => exact ih hrest (first ▸ inner)
      | waits first =>
        rw [first] at inner
        cases inner with
        | call inner later => exact (ih hrest (.tail inner)).trans ⟨_, rfl⟩

/-- If the last one stops for a cause at once, that is all. -/
theorem traces_of_passes (h : (c :: cs).IsChain Call.Passes) {e : EvalError} {m : Machine ω}
    (hlast : ((c :: cs).getLast (List.cons_ne_nil _ _)).begin = .done (.error e m)) :
    (Turn.tail c).Traces (c :: cs) (.error e m) := by
  induction cs generalizing c with
  | nil => exact .tail (hlast ▸ .done)
  | cons c' cs ih =>
    obtain ⟨hpasses, hrest⟩ := List.isChain_cons_cons.mp h
    have hinner := ih hrest hlast
    refine .tail ?_
    cases hpasses with
    | goes first => exact first ▸ hinner
    | waits first stops =>
      rw [first]
      cases hinner with
      | tail inner =>
        have hcall := Turn.Traces.call inner (stops e m ▸ Turn.Traces.done)
        rwa [List.append_nil] at hcall

end Call

namespace Node

variable {n c last : Node} {l : LabelId} {s : Descent} {m m₁ : Machine ω} {way : List Node}

/-- How the execution of a node in which a place is sought begins: it goes down the way, and then
starts the last node. -/
structure Descends (ω : Type) (n : Node) (s : Descent) (way : List Node) (last : Node) :
    Prop where
  /-- The calls of the way start one another, each in the machine where the locals of those before
  are declared. -/
  passes : ∀ m : Machine ω, (s.calls (way ++ [last]) m).IsChain Call.Passes
  /-- Whatever the execution comes to, these calls are the first ones that it makes. -/
  starts : ∀ (m : Machine ω) calls r, (Turn.tail ⟨n, some s, m⟩).Traces calls r →
    s.calls (way ++ [last]) m <+: calls
  /-- No node on the way evaluates anything by itself. -/
  silent : ∀ p ∈ way, ∀ (m : Machine ω) e m', ¬p.Evaluates (some s) m e m'
  /-- A limited execution with steps for the way gets to the last node, with nothing done but that
  these steps are counted and the locals on the way are declared. -/
  visits : ∀ (m : Machine ω) fuel, m.stepsLeft < fuel → way.length ≤ m.stepsLeft →
    Visits fuel ⟨n, some s, m⟩ (fuel - way.length) way.reverse [] ⟨last, some s, past way m⟩
  /-- Otherwise the limit stops it, with nothing else done either. -/
  limited : ∀ (m : Machine ω) fuel, m.stepsLeft < fuel → m.stepsLeft ≤ way.length →
    n.execWithin fuel (some s) m = .error (.failed (.stepLimit m.stepLimit))
      { past (way.take m.stepsLeft) m with steps := m.steps + m.stepsLeft + 1 }

theorem Way.descends (h : Way s.target n way last) : n.Descends ω s way last where
  passes := h.passes
  starts m calls r ht := by
    have hpasses := h.passes m
    cases h with
    | here => exact Call.prefix_of_passes hpasses ht
    | down => exact Call.prefix_of_passes hpasses ht
  silent p hp := by
    obtain ⟨c, hc⟩ := h.toward_of_mem hp
    exact not_evaluates_of_toward hc
  visits m fuel hfuel hsteps := by
    obtain ⟨k, rfl⟩ : ∃ k, fuel = k + 1 + way.length := ⟨fuel - way.length - 1, by omega⟩
    rw [Nat.add_sub_cancel]
    exact h.visits k hsteps
  limited m fuel hfuel hsteps := by
    obtain ⟨p, hp⟩ := h.take hsteps
    have hlength : (way.take m.stepsLeft).length = m.stepsLeft := List.length_take_of_le hsteps
    obtain ⟨k, rfl⟩ : ∃ k, fuel = k + 1 + (way.take m.stepsLeft).length :=
      ⟨fuel - m.stepsLeft - 1, by omega⟩
    have hvisit := hp.visits (m := m) k hlength.le
    have hleft : (past (way.take m.stepsLeft) m).stepsLeft = 0 := by
      rw [past_stepsLeft, hlength, Nat.sub_self]
    have hstop := hvisit.error (p.execWithin_limited (some s) k hleft)
    refine hstop.trans ?_
    rw [past, hlength]
    rfl

end Node

end StructuredFlow
