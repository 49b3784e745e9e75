import StructuredFlow.Proofs.Plans

/-
  The statements of a scope stay together. In the plan of a builder the statements of each scope
  are the parts of one node, one after the other in their order, or the only statement is a node by
  itself (`Builder.plan_keeps`). In front of them stands at most the label that empty groups of a
  switch jump to.
-/

namespace StructuredFlow

namespace Plan

/-- `p` is in the other plan, where it may stand for more statements. -/
inductive Inside (p : Plan) : Plan → Prop
  | here : Inside p p
  | standing {q : Plan} (site : Site) : Inside p q → Inside p (q.standing site)
  | part {q : Plan} {purpose : Purpose} {sites : List Site} {parts : List Plan} :
      Inside p q → q ∈ parts → Inside p (node purpose sites parts)

variable {p q r : Plan} {purpose : Purpose} {sites : List Site} {parts : List Plan}

theorem Inside.trans (h : p.Inside q) (h' : q.Inside r) : p.Inside r := by
  induction h' with
  | here => exact h
  | standing site _ ih => exact ih.standing site
  | part _ mem ih => exact ih.part mem

/-- What is inside a plan is one of the plans in it, apart from the statements it stands for. -/
theorem Inside.mem_subplans (h : (node purpose sites parts).Inside p) :
    ∃ more, sites ⊆ more ∧ node purpose more parts ∈ p.subplans := by
  induction h with
  | here => exact ⟨sites, fun _ h => h, subplans_eq _ ▸ List.mem_cons_self⟩
  | @standing q site _ ih =>
    obtain ⟨more, hmore, hmem⟩ := ih
    rw [subplans_eq, List.mem_cons] at hmem
    rcases hmem with rfl | hmem
    · refine ⟨site :: more, List.subset_cons_of_subset site hmore, ?_⟩
      exact subplans_eq _ ▸ List.mem_cons_self
    · exact ⟨more, hmore, subplans_eq _ ▸ List.mem_cons_of_mem _ hmem⟩
  | part _ mem ih =>
    obtain ⟨more, hmore, hmem⟩ := ih
    refine ⟨more, hmore, subplans_eq _ ▸ List.mem_cons_of_mem _ ?_⟩
    exact List.mem_flatMap.mpr ⟨_, mem, hmem⟩

/-- What may stand before the statements of a scope: the label that groups fall through to. -/
def Front (front : List Plan) : Prop :=
  front = [] ∨ ∃ site, front = [leaf (.part site .fall)]

/-- The plans of a scope's statements are in the plan, together and in their order. -/
inductive Lists (plan : Plan) : Sheet → Prop
  | nothing {id} : Lists plan ⟨id, true, []⟩
  | alone {id p} (inside : p.Inside plan) : Lists plan ⟨id, true, [p]⟩
  | block {id bare items front} (label : Front front)
      (inside : (node (.block id) [] (front ++ items)).Inside plan) : Lists plan ⟨id, bare, items⟩

namespace Lists

variable {plan : Plan} {sh : Sheet}

theorem trans (h : p.Lists sh) (inside : p.Inside plan) : plan.Lists sh := by
  cases h with
  | nothing => exact .nothing
  | alone place => exact .alone (place.trans inside)
  | block label place => exact .block label (place.trans inside)

theorem item (h : plan.Lists sh) (hp : p ∈ sh.items) : p.Inside plan := by
  cases h with
  | nothing => exact absurd hp List.not_mem_nil
  | alone inside => exact List.mem_singleton.mp hp ▸ inside
  | block _ inside => exact (Inside.here.part (List.mem_append_right _ hp)).trans inside

theorem collapse (sh : Sheet) : sh.collapse.Lists sh := by
  obtain ⟨id, bare, items⟩ := sh
  unfold Sheet.collapse
  split
  next h =>
    cases h
    exact .nothing
  next p h =>
    cases h
    exact .alone .here
  next h =>
    cases h
    exact .block (.inl rfl) .here

theorem ofDefault (site : Site) (falls : Bool) (body : Sheet) :
    (ofDefault site falls body).Lists body := by
  unfold Plan.ofDefault
  split
  · obtain ⟨id, bare, items⟩ := body
    -- With the label before it, a single statement does not stand alone any more.
    cases bare with
    | false => exact .block (.inr ⟨site, rfl⟩) .here
    | true =>
      cases items with
      | nil => exact .nothing
      | cons p items => exact .block (.inr ⟨site, rfl⟩) .here
  · exact collapse body

theorem ofGroup {group : Option Sheet} (site : Site) (k : Nat) (hgroup : group = some sh) :
    (ofGroup site group k).Lists sh := by
  subst hgroup
  unfold Plan.ofGroup
  split
  next hempty =>
    obtain ⟨id, bare, items⟩ := sh
    rw [Option.all_some, Sheet.isEmpty, Bool.and_eq_true, List.isEmpty_iff] at hempty
    obtain ⟨rfl, rfl⟩ := hempty
    exact .nothing
  next => exact collapse sh

end Lists

variable (site : Site)

theorem inside_ofLinks (k : Nat) {ps : List Plan} (otherwise : Plan) (hp : p ∈ ps) :
    p.Inside (ofLinks site k ps otherwise) := by
  induction ps generalizing k with
  | nil => exact absurd hp List.not_mem_nil
  | cons q ps ih =>
    rcases List.mem_cons.mp hp with rfl | hp
    · exact Inside.here.part List.mem_cons_self
    · exact (ih (k + 1) hp).part (List.mem_cons_of_mem _ (List.mem_singleton_self _))

theorem otherwise_inside_ofLinks (k : Nat) (ps : List Plan) (otherwise : Plan) :
    otherwise.Inside (ofLinks site k ps otherwise) := by
  induction ps generalizing k with
  | nil => exact .here
  | cons q ps ih => exact (ih (k + 1)).part (List.mem_cons_of_mem _ (List.mem_singleton_self _))

theorem inside_ofLoop (whole : Part) (p : Plan) : p.Inside (ofLoop site whole p) :=
  (Inside.here.part List.mem_cons_self).part (List.mem_singleton_self _)

theorem inside_withCleanup (s : Symbol) (p : Plan) : p.Inside (withCleanup site s p) :=
  (Inside.here.part List.mem_cons_self).part (List.mem_cons_of_mem _ (List.mem_singleton_self _))

theorem inside_ofIteration (iterator : Symbol) (p : Plan) :
    p.Inside (ofIteration site iterator p) := by
  unfold ofIteration
  split
  · exact inside_withCleanup site iterator p
  · exact Inside.here.part (List.mem_cons_of_mem _ (List.mem_singleton_self _))

theorem ofSwitch_lists {groups : List (Option Sheet)} {default : Option Sheet} {sh : Sheet}
    (h : sh ∈ groups.filterMap id ++ default.toList) : (ofSwitch site groups default).Lists sh := by
  by_cases hsole : groups = [] → default = none
  · rw [ofSwitch_eq site hsole]
    rcases List.mem_append.mp h with h | h
    · obtain ⟨group, hgroup, hsome⟩ := List.mem_filterMap.mp h
      obtain ⟨k, hk⟩ := List.mem_iff_getElem?.mp hgroup
      refine (Lists.ofGroup site k hsome).trans (Inside.here.part (List.mem_append_left _ ?_))
      exact List.mem_map.mpr ⟨(group, k), List.mem_zipIdx_iff_getElem?.mpr hk, rfl⟩
    · obtain rfl := Option.mem_toList.mp h
      have hlists := Lists.ofDefault site (groups.any (·.all Sheet.isEmpty)) sh
      exact hlists.trans (Inside.here.part (List.mem_append_right _ (List.mem_singleton_self _)))
  · obtain ⟨rfl, hdefault⟩ := Classical.not_imp.mp hsole
    obtain ⟨body, rfl⟩ := Option.ne_none_iff_exists'.mp hdefault
    obtain rfl := List.mem_singleton.mp h
    exact .collapse sh

end Plan

/-- The plan of a statement lists each of its scopes. -/
theorem Stmt.plan_lists (site : Site) {stmt : Stmt Sheet} {sh : Sheet} (h : sh ∈ stmt.scopes) :
    (stmt.plan site).Lists sh := by
  refine Plan.Lists.trans (p := stmt.design site) ?_ (.standing site .here)
  have collapsed {plan : Plan} (inside : sh.collapse.Inside plan) : plan.Lists sh :=
    (Plan.Lists.collapse sh).trans inside
  cases stmt with
  | node | goto => exact absurd h List.not_mem_nil
  | conditional links otherwise =>
    rcases List.mem_append.mp h with h | h
    · obtain ⟨l, hl, rfl⟩ := List.mem_map.mp h
      exact collapsed (Plan.inside_ofLinks site 0 _ (List.mem_map.mpr ⟨l, hl, rfl⟩))
    · obtain rfl := Option.mem_toList.mp h
      exact collapsed (Plan.otherwise_inside_ofLinks site 0 _ _)
  | loop l body =>
    obtain rfl := List.mem_singleton.mp h
    exact collapsed (Plan.inside_ofLoop site .root _)
  | iteration iterator collection l body =>
    obtain rfl := List.mem_singleton.mp h
    exact collapsed ((Plan.inside_ofLoop site .walk _).trans (Plan.inside_ofIteration site _ _))
  | switch value groups default =>
    refine Plan.ofSwitch_lists site ?_
    rw [List.filterMap_map]
    exact h
  | attempt body handlers cleanup =>
    refine collapsed (Plan.Inside.here.part ?_)
    rcases List.mem_cons.mp h with rfl | h
    · exact List.mem_cons_self
    refine List.mem_cons_of_mem _ ?_
    rcases List.mem_append.mp h with h | h
    · obtain ⟨k, hk, rfl⟩ := List.mem_map.mp h
      exact List.mem_append_left _ (List.mem_map.mpr ⟨k, hk, rfl⟩)
    · obtain rfl := Option.mem_toList.mp h
      exact List.mem_append_right _ (List.mem_singleton_self _)
  | resource s producer body =>
    obtain rfl := List.mem_singleton.mp h
    exact collapsed (Plan.inside_withCleanup site s _)

/-- The statements of a scope are consecutive parts of one node in their order, after the label at
most that groups of a switch fall through to; or the scope has no variables, and its only statement
is a node by itself. A scope without variables and statements needs no node. -/
inductive Plan.Keeps (plan : Plan) (s : Scope) : Prop
  | nothing (stmts : s.stmts = []) (locals : s.frame.locals = [])
  | alone {p : Plan} (place : p ∈ plan.subplans) (locals : s.frame.locals = [])
      (stmts : s.stmts.length = 1) (stands : ⟨s.frame.id, 0⟩ ∈ p.sites)
  | block {sites : List Site} {front items : List Plan}
      (place : .node (.block s.frame.id) sites (front ++ items) ∈ plan.subplans)
      (label : Front front)
      (stands : List.Forall₂ (fun p i => ⟨s.frame.id, i⟩ ∈ p.sites) items
        (List.range s.stmts.length))

namespace Builder

variable {b : Builder}

theorem plan_lists {outer : Chain} {s : Scope} (h : b.top.Within outer s) :
    b.plan.Lists s.sheet := by
  induction h with
  | here => exact (Plan.Lists.collapse _).trans (Plan.Inside.here.part List.mem_cons_self)
  | @inside outer s c _ hc ih =>
    obtain ⟨stmt, hstmt, hcs⟩ := Scope.mem_children.mp hc
    obtain ⟨i, hi⟩ := List.mem_iff_getElem?.mp hstmt
    have hscope : c.sheet ∈ (stmt.map Scope.sheet).scopes :=
      Stmt.scopes_map Scope.sheet stmt ▸ List.mem_map_of_mem hcs
    refine (Stmt.plan_lists ⟨s.frame.id, i⟩ hscope).trans (ih.item ?_)
    rw [Scope.sheet_eq]
    exact List.mem_map.mpr ⟨(stmt, i), List.mem_zipIdx_iff_getElem?.mpr hi, rfl⟩

/-- The plan keeps the statements of each scope together. -/
theorem plan_keeps {outer : Chain} {s : Scope} (h : b.top.Within outer s) : b.plan.Keeps s := by
  have hlists := plan_lists h
  have hitems : List.Forall₂ (fun p i => ⟨s.frame.id, i⟩ ∈ p.sites)
      (s.stmts.zipIdx.map fun p => (p.1.map Scope.sheet).plan ⟨s.frame.id, p.2⟩)
      (List.range s.stmts.length) := by
    rw [List.range_eq_range', ← List.zipIdx_map_snd 0 s.stmts]
    exact forall₂_map_map fun p _ => List.mem_cons_self
  generalize hsheet : s.sheet = sh at hlists
  rw [Scope.sheet_eq] at hsheet
  cases hlists with
  | nothing =>
    obtain ⟨-, hlocals, hnil⟩ := Sheet.mk.inj hsheet
    rw [hnil] at hitems
    have hlength : s.stmts.length = 0 := by simpa using hitems.length_eq.symm
    exact .nothing (List.length_eq_zero_iff.mp hlength) (List.isEmpty_iff.mp hlocals)
  | @alone id p inside =>
    obtain ⟨-, hlocals, hone⟩ := Sheet.mk.inj hsheet
    rw [hone] at hitems
    have hlength : s.stmts.length = 1 := by simpa using hitems.length_eq.symm
    rw [hlength] at hitems
    obtain ⟨purpose, sites, parts⟩ := p
    obtain ⟨more, hmore, hmem⟩ := inside.mem_subplans
    refine .alone hmem (List.isEmpty_iff.mp hlocals) hlength (hmore ?_)
    exact (List.forall₂_cons.mp hitems).1
  | block label inside =>
    obtain ⟨rfl, -, rfl⟩ := Sheet.mk.inj hsheet
    obtain ⟨more, -, hmem⟩ := inside.mem_subplans
    exact .block hmem label hitems

end Builder

end StructuredFlow
