import StructuredFlow.Proofs.Descents

/-
  Places that are sought. Where a label is marked exactly once, all that the descent to it chooses is
  the one child that has the mark in it, so its way is the nodes around the mark
  (`Node.Stands.way`); at the mark it gives what the jump carries. A mark in a handler is not reached:
  the outermost region with the mark in a handler refuses it, and as that is a cause to stop, nothing
  else is executed at all (`Node.seek_law`).
-/

namespace StructuredFlow

variable {ω : Type}

open Exec Outcome Machine

namespace Node

variable {n c : Node} {l : LabelId}

/-! ## The child with the mark -/

theorem countP_marks_pos {ns : List Node} (hc : c ∈ ns) (hl : c.defines l = true) :
    0 < (ns.flatMap subnodes).countP (marks l) := by
  obtain ⟨d, hd, hmarks⟩ := defines_iff.mp hl
  exact List.countP_pos_iff.mpr ⟨d, List.mem_flatMap.mpr ⟨c, hc, hd⟩, hmarks⟩

/-- Among nodes with one mark, the one that has it is found. -/
theorem find?_defines {ns : List Node} (once : (ns.flatMap subnodes).countP (marks l) ≤ 1)
    (hc : c ∈ ns) (hl : c.defines l = true) : ns.find? (·.defines l) = some c := by
  induction ns with
  | nil => exact absurd hc List.not_mem_nil
  | cons x ns ih =>
    rw [List.flatMap_cons, List.countP_append] at once
    rcases List.mem_cons.mp hc with rfl | hc
    · exact List.find?_cons_of_pos hl
    · have hrest := countP_marks_pos hc hl
      have hx : ¬x.defines l = true := fun hx => by
        have := count_marks_pos.mpr hx
        unfold count at this
        omega
      rw [List.find?_cons_of_neg hx]
      exact ih (by omega) hc

theorem children_perm (n : Node) :
    n.children.Perm (n.parts ++ n.handlers.map Handler.body) := by
  cases n with
  | attempt body handlers cleanup => exact (List.perm_append_comm).cons body
  | _ => simp [children, parts, handlers]

/-- The marks in the parts and those in the handlers are marks of the node. -/
theorem count_parts_handlers_le (n : Node) (p : Node → Bool) :
    (n.parts.flatMap subnodes).countP p +
      ((n.handlers.map Handler.body).flatMap subnodes).countP p ≤ n.count p := by
  rw [count, subnodes_eq, List.countP_cons, (n.children_perm.flatMap_right subnodes).countP_eq,
    List.flatMap_append, List.countP_append]
  exact Nat.le_add_right _ _

theorem toward_of_mem_parts (once : n.count (marks l) ≤ 1) (hc : c ∈ n.parts)
    (hl : c.defines l = true) : n.toward l = some c := by
  have := n.count_parts_handlers_le (marks l)
  exact find?_defines (by omega) hc hl

theorem toward_of_mem_handlers (once : n.count (marks l) ≤ 1) {h : Handler Node}
    (hh : h ∈ n.handlers) (hl : h.body.defines l = true) : n.toward l = none := by
  refine List.find?_eq_none.mpr fun c hc hdefines => ?_
  have hparts := countP_marks_pos hc hdefines
  have hhandlers := countP_marks_pos (List.mem_map_of_mem hh) hl
  have := n.count_parts_handlers_le (marks l)
  omega

/-! ## Where the mark stands -/

theorem count_le_of_mem_subnodes (h : c ∈ n.subnodes) (p : Node → Bool) : c.count p ≤ n.count p :=
  (subnodes_sublist h).countP_le

/-- The way to what stands in the tree, outside of its handlers, is through the nodes around. -/
theorem Stands.way {root : Node} (once : root.count (marks l) ≤ 1) {around : List Node}
    (h : root.Stands around [] c) (hl : c.defines l = true) : Way l root around.reverse c := by
  generalize hhs : ([] : List (Handler Node)) = hs at h
  induction h with
  | here => exact .here
  | @part around hs n c outer mem ih =>
    have hn : n.defines l = true := by
      rw [defines_eq, Bool.or_eq_true, List.any_eq_true]
      exact .inr ⟨c, mem_children_iff.mpr (.inl mem), hl⟩
    have hcount := (count_le_of_mem_subnodes outer.mem_subnodes (marks l)).trans once
    rw [List.reverse_cons]
    exact (ih hn hhs).snoc (toward_of_mem_parts hcount mem hl)
  | handler => cases hhs

/-- What stands in handlers stands in a handler of a region that stands in none. -/
theorem Stands.exists_region {root : Node} {around : List Node} {hs : List (Handler Node)}
    (h : root.Stands around hs c) (hhs : hs ≠ []) :
    ∃ outer region caught inner hs', around = inner ++ region :: outer ∧
      root.Stands outer [] region ∧ caught ∈ region.handlers ∧ caught.body.Stands inner hs' c := by
  induction h with
  | here => exact absurd rfl hhs
  | part _ mem ih =>
    obtain ⟨outer, region, caught, inner, hs', rfl, houter, hcaught, hinner⟩ := ih hhs
    exact ⟨outer, region, caught, _ :: inner, hs', rfl, houter, hcaught, hinner.part mem⟩
  | @handler around hs n h stands mem ih =>
    cases hs with
    | nil => exact ⟨around, n, h, [], [], rfl, stands, mem, .here⟩
    | cons k hs =>
      obtain ⟨outer, region, caught, inner, hs', rfl, houter, hcaught, hinner⟩ := ih nofun
      exact ⟨outer, region, caught, _ :: inner, _, rfl, houter, hcaught, hinner.handler mem⟩

/-! ## The end of the way -/

/-- A descent that gets to the mark. -/
structure Lands (ω : Type) (n : Node) (s : Descent) (way : List Node) (target : Label)
    (default : Option Constant) : Prop extends Descends ω n s way (.label target default) where
  /-- The mark gives what is carried along, or else its default. -/
  yields : ∀ m : Machine ω, Call.begin ⟨.label target default, some s, m⟩ =
    .done (.ok (.normal (s.value.getD ((default.map Value.ofConstant).getD .void))) m)
  /-- So it does where a limited execution gets to it, if there is a step left for it. -/
  gives : ∀ (m : Machine ω) fuel, m.stepsLeft < fuel → way.length < m.stepsLeft →
    Call.result (execWithin (fuel - way.length)) ⟨.label target default, some s, past way m⟩ =
      .ok (.normal (s.value.getD ((default.map Value.ofConstant).getD .void)))
        { past way m with steps := m.steps + way.length + 1 }

/-- A descent to a place in a handler of the region. -/
structure Refuses (ω : Type) (n : Node) (s : Descent) (way : List Node) (region : Node) :
    Prop extends Descends ω n s way region where
  /-- The region starts nothing, and so neither does anything around it. -/
  traces : ∀ m : Machine ω, (Turn.tail ⟨n, some s, m⟩).Traces (s.calls (way ++ [region]) m)
    (.error (.jumpIntoHandler s.target) (m.declare (way.flatMap locals)))
  /-- A limited execution stops there, if there are steps to get there. -/
  stops : ∀ (m : Machine ω) fuel, m.stepsLeft < fuel → way.length < m.stepsLeft →
    n.execWithin fuel (some s) m = .error (.failed (.jumpIntoHandler s.target))
      { past way m with steps := m.steps + way.length + 1 }

variable {s : Descent} {way : List Node}

theorem Way.lands {target : Label} {default : Option Constant}
    (h : Way s.target n way (.label target default)) (htarget : target.id = s.target) :
    n.Lands ω s way target default := by
  have hvalue : labelValue target default (some s) =
      s.value.getD ((default.map Value.ofConstant).getD .void) := by
    rw [← labelValue_carried target, htarget]
  refine ⟨h.descends, fun m => ?_, fun m fuel hfuel hsteps => ?_⟩
  · rw [← hvalue]
    rfl
  · obtain ⟨k, hk⟩ : ∃ k, fuel - way.length = k + 1 := ⟨fuel - way.length - 1, by omega⟩
    have ticked := tick_eq (m := past way m) (by rw [past_stepsLeft]; omega)
    rw [hk, ← hvalue]
    exact andThen_of_ok ticked

/-- A region that has the place in none of its parts is not entered. -/
theorem region_refuses {region : Node} {h : Handler Node} (hh : h ∈ region.handlers)
    (hnone : region.toward s.target = none) (m : Machine ω) :
    Call.begin ⟨region, some s, m⟩ = .done (.error (.jumpIntoHandler s.target) m) ∧
      ∀ fuel, 0 < m.stepsLeft → region.execWithin (fuel + 2) (some s) m =
        .error (.failed (.jumpIntoHandler s.target)) { m with steps := m.steps + 1 } := by
  cases region with
  | attempt body handlers cleanup =>
    have hentrance := entrance_of_toward_none hnone
    constructor
    · show Turn.region body handlers cleanup (some s) m = _
      rw [Turn.region, hentrance]
    · intro fuel hsteps
      refine (andThen_of_ok (tick_eq hsteps)).trans ?_
      show region (execWithin (fuel + 1)) body handlers cleanup (fuel + 1) (some s) _ = _
      rw [region, hentrance]
      rfl
  | _ => exact absurd hh List.not_mem_nil

theorem Way.refuses {region : Node} (h : Way s.target n way region) {caught : Handler Node}
    (hcaught : caught ∈ region.handlers) (hnone : region.toward s.target = none) :
    n.Refuses ω s way region := by
  have hend := fun m : Machine ω => region_refuses hcaught hnone m
  refine ⟨h.descends, fun m => ?_, fun m fuel hfuel hsteps => ?_⟩
  · have hpasses := h.passes m
    have hlast := fun hne =>
      (congrArg Call.begin (s.getLast_calls way region m hne)).trans (hend _).1
    cases h with
    | here => exact Call.traces_of_passes hpasses (hlast _)
    | down => exact Call.traces_of_passes hpasses (hlast _)
  · obtain ⟨k, rfl⟩ : ∃ k, fuel = k + 2 + way.length := ⟨fuel - way.length - 2, by omega⟩
    have hleft : 0 < (past way m).stepsLeft := by rw [past_stepsLeft]; omega
    exact (h.visits (k + 1) hsteps.le).error ((hend (past way m)).2 k hleft)

/-- Where a label is marked once, the descent to it goes by the nodes around the mark, or only as far
as to a region that has the mark in a handler; on the way only steps are counted and locals are
declared. -/
theorem seek_law (once : n.count (marks l) = 1) (v : Option Value) :
    (∃ around hs target default,
        n.Stands around hs (.label target default) ∧ target.id = l) ∧
      ∀ around hs target default, n.Stands around hs (.label target default) → target.id = l →
        (hs = [] → n.Lands ω ⟨l, v⟩ around.reverse target default) ∧
        (hs ≠ [] → ∃ outer region caught inner hs', around = inner ++ region :: outer ∧
          n.Stands outer [] region ∧ caught ∈ region.handlers ∧
          caught.body.Stands inner hs' (.label target default) ∧
          n.Refuses ω ⟨l, v⟩ outer.reverse region) := by
  constructor
  · obtain ⟨c, hc, hmarks⟩ := defines_iff.mp (count_marks_pos.mp (once.symm ▸ Nat.one_pos))
    cases c with
    | label target default =>
      obtain ⟨around, hs, hstands⟩ := exists_stands hc
      exact ⟨around, hs, target, default, hstands, beq_iff_eq.mp hmarks⟩
    | _ => cases hmarks
  · rintro around hs target default hstands rfl
    have hmark : (label target default).defines target.id = true := beq_self_eq_true _
    constructor
    · rintro rfl
      exact (hstands.way once.le hmark).lands rfl
    · intro hhs
      obtain ⟨outer, region, caught, inner, hs', heq, houter, hcaught, hinner⟩ :=
        hstands.exists_region hhs
      have hbody : caught.body.defines target.id = true :=
        defines_iff.mpr ⟨_, hinner.mem_subnodes, hmark⟩
      have hregion : region.defines target.id = true := by
        rw [defines_eq, Bool.or_eq_true, List.any_eq_true]
        exact .inr ⟨_, mem_children_iff.mpr (.inr ⟨caught, hcaught, rfl⟩), hbody⟩
      have hcount := (count_le_of_mem_subnodes houter.mem_subnodes (marks target.id)).trans once.le
      have hnone := toward_of_mem_handlers hcount hcaught hbody
      refine ⟨outer, region, caught, inner, hs', heq, houter, hcaught, hinner, ?_⟩
      exact (houter.way once.le hregion).refuses hcaught hnone

/-- A call of the host is passed over on the way to the mark behind it. In a handler the mark is not
reached. -/
theorem seek_law_past_call :
    let l : Label := ⟨1, none, .int⟩
    let mark : Node := .label l (some (.int 7))
    let row : Node := .block [⟨2, none, .int⟩] [.eval (.call "f" [] .int), mark]
    let region : Node := .attempt .nop [⟨.any, none, mark⟩] none
    (row.count (marks 1) = 1 ∧ row.Lands Unit ⟨1, none⟩ [row] l (some (.int 7))) ∧
      region.count (marks 1) = 1 ∧ region.Refuses Unit ⟨1, none⟩ [] region := by
  intro l mark row region
  have hrow : row.Stands [row] [] mark :=
    .part .here (List.mem_cons_of_mem _ (List.mem_singleton_self _))
  have hregion : region.Stands [region] [⟨.any, none, mark⟩] mark :=
    .handler .here (List.mem_singleton_self _)
  refine ⟨⟨rfl, ((seek_law rfl none).2 _ _ _ _ hrow rfl).1 rfl⟩, rfl, ?_⟩
  obtain ⟨outer, region', -, inner, -, heq, -, -, -, hrefuses⟩ :=
    ((seek_law (l := 1) rfl none).2 _ _ _ _ hregion rfl).2 nofun
  cases inner with
  | nil =>
    obtain ⟨rfl, rfl⟩ := List.cons.inj heq
    exact hrefuses
  | cons _ inner => exact absurd (List.cons.inj heq).2.symm (by simp)

end Node

end StructuredFlow
