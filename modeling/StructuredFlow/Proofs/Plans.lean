import StructuredFlow.Proofs.AssembledPlaces
import StructuredFlow.Proofs.Sites

/-
  Plans of programs. A plan is a tree that says of each node of a program what the node is there
  for, and for which statements it stands; it is read off the scopes (`Builder.plan`). The plan of a
  builder stands for every statement once (`Builder.Numbered.covers_plan`), and has no two nodes for
  one purpose (`Builder.Numbered.purposes_nodup`).
-/

namespace StructuredFlow

/-- What a construct is made of, apart from its scopes. -/
inductive Part where
  /-- The node for the whole statement. -/
  | root
  /-- The test of a branch of a conditional, and the alternative that a conditional lacks. -/
  | link (k : Nat)
  | absent
  /-- The loop of an iteration, the test of a loop and the jump out of it. -/
  | walk
  | test
  | exit
  /-- What assigns a resource, guards it and releases it: a call, or nothing if there is none. -/
  | acquire
  | guard
  | release
  | call
  | spare
  /-- What an empty group of a switch does, and the label that it jumps to. -/
  | group (k : Nat)
  | fall
deriving DecidableEq

/-- What a node of a program is there for: a part of a statement, all of a scope, the body of the
program or its end. -/
inductive Purpose where
  | part (site : Site) (part : Part)
  | block (id : ScopeId)
  | empty (id : ScopeId)
  | body
  | returning
deriving DecidableEq

/-- The scope that a node is there for, or for a statement of which. -/
def Purpose.scope? : Purpose → Option ScopeId
  | part site _ => some site.scope
  | block id | empty id => some id
  | body | returning => none

/-- A tree of nodes, each with its purpose and the sites of the statements that it stands for. -/
inductive Plan where
  | node (purpose : Purpose) (sites : List Site) (parts : List Plan)

namespace Plan

def purpose : Plan → Purpose
  | node purpose _ _ => purpose

def sites : Plan → List Site
  | node _ sites _ => sites

def parts : Plan → List Plan
  | node _ _ parts => parts

mutual

/-- All plans in a plan, each before those below it. -/
def subplans (p : Plan) : List Plan :=
  p :: match p with
    | node _ _ parts => subplansAll parts

def subplansAll : List Plan → List Plan
  | [] => []
  | p :: rest => p.subplans ++ subplansAll rest

end

theorem subplansAll_eq_flatMap (ps : List Plan) : subplansAll ps = ps.flatMap subplans := by
  induction ps with
  | nil => rfl
  | cons p ps ih => rw [subplansAll, ih, List.flatMap_cons]

theorem subplans_eq (p : Plan) : p.subplans = p :: p.parts.flatMap subplans := by
  cases p
  rw [subplans, subplansAll_eq_flatMap]
  rfl

/-- The statements that the nodes stand for. -/
def covers (p : Plan) : List Site :=
  p.subplans.flatMap sites

/-- The purposes of the nodes. -/
def purposes (p : Plan) : List Purpose :=
  p.subplans.map purpose

@[simp] theorem covers_node (purpose : Purpose) (sites : List Site) (parts : List Plan) :
    (node purpose sites parts).covers = sites ++ parts.flatMap covers := by
  rw [covers, subplans_eq, List.flatMap_cons, List.flatMap_assoc]
  rfl

@[simp] theorem purposes_node (purpose : Purpose) (sites : List Site) (parts : List Plan) :
    (node purpose sites parts).purposes = purpose :: parts.flatMap purposes := by
  rw [purposes, subplans_eq, List.map_cons, List.map_flatMap]
  rfl

def leaf (purpose : Purpose) : Plan :=
  node purpose [] []

@[simp] theorem covers_leaf (purpose : Purpose) : (leaf purpose).covers = [] := by
  simp [leaf]

@[simp] theorem purposes_leaf (purpose : Purpose) : (leaf purpose).purposes = [purpose] := by
  simp [leaf]

/-- The plan, with a statement more that it stands for. -/
def standing (p : Plan) (site : Site) : Plan :=
  node p.purpose (site :: p.sites) p.parts

@[simp] theorem covers_standing (p : Plan) (site : Site) :
    (p.standing site).covers = site :: p.covers := by
  cases p
  simp [standing, purpose, sites, parts]

@[simp] theorem purposes_standing (p : Plan) (site : Site) :
    (p.standing site).purposes = p.purposes := by
  cases p
  simp [standing, purpose, sites, parts]

end Plan

/-! ## The plans of statements -/

/-- The plan of a scope, not closed yet: the plans of its statements. -/
structure Sheet where
  id : ScopeId
  /-- The scope has no variables. -/
  bare : Bool
  items : List Plan

namespace Sheet

def isEmpty (sh : Sheet) : Bool :=
  sh.items.isEmpty && sh.bare

/-- The sheet with a plan before all others. -/
def cons (p : Plan) (sh : Sheet) : Sheet :=
  { sh with items := p :: sh.items }

/-- The plan of the least node for the scope. -/
def collapse : Sheet → Plan
  | ⟨id, true, []⟩ => .leaf (.empty id)
  | ⟨_, true, [p]⟩ => p
  | ⟨id, _, items⟩ => .node (.block id) [] items

end Sheet

namespace Plan

variable (site : Site)

/-- The tests of a conditional, of which `k` come before. -/
def ofLinks (k : Nat) : List Plan → Plan → Plan
  | [], otherwise => otherwise
  | p :: rest, otherwise => node (.part site (.link k)) [] [p, ofLinks (k + 1) rest otherwise]

def ofLoop (whole : Part) (body : Plan) : Plan :=
  node (.part site whole) []
    [node (.part site .test) [] [body, leaf (.part site .exit)]]

def ofDisposal (s : Symbol) : Plan :=
  if s.ty.isReference then
    node (.part site .release) [] [leaf (.part site .call), leaf (.part site .spare)]
  else leaf (.part site .release)

def withCleanup (s : Symbol) (body : Plan) : Plan :=
  node (.part site .root) []
    [leaf (.part site .acquire), node (.part site .guard) [] [body, ofDisposal site s]]

def ofIteration (iterator : Symbol) (walk : Plan) : Plan :=
  if iterator.ty.isDisposable then withCleanup site iterator walk
  else node (.part site .root) [] [leaf (.part site .acquire), walk]

/-- A group that has nothing to do falls through to the default. -/
def ofGroup (group : Option Sheet) (k : Nat) : Plan :=
  if group.all Sheet.isEmpty then leaf (.part site (.group k))
  else (group.map Sheet.collapse).getD (leaf (.part site (.group k)))

/-- The default of a switch; the label is before it if some group falls through. -/
def ofDefault (falls : Bool) (body : Sheet) : Plan :=
  (if falls then body.cons (leaf (.part site .fall)) else body).collapse

/-- A switch without groups is its default. -/
def ofSwitch : List (Option Sheet) → Option Sheet → Plan
  | [], some body => body.collapse
  | groups, default =>
    node (.part site .root) [] (groups.zipIdx.map (fun g => ofGroup site g.1 g.2) ++
      (default.map (ofDefault site (groups.any (·.all Sheet.isEmpty)))).toList)

theorem ofSwitch_eq {groups : List (Option Sheet)} {default : Option Sheet}
    (h : groups = [] → default = none) :
    ofSwitch site groups default =
      node (.part site .root) [] (groups.zipIdx.map (fun g => ofGroup site g.1 g.2) ++
        (default.map (ofDefault site (groups.any (·.all Sheet.isEmpty)))).toList) := by
  cases groups with
  | cons => rfl
  | nil => rw [h rfl, ofSwitch]; exact nofun

end Plan

namespace Stmt

/-- The plan of a statement, from those of its scopes. -/
def design (site : Site) : Stmt Sheet → Plan
  | node _ | goto _ => .leaf (.part site .root)
  | conditional links otherwise =>
    .ofLinks site 0 (links.map (·.2.collapse))
      ((otherwise.map Sheet.collapse).getD (.leaf (.part site .absent)))
  | loop _ body => .ofLoop site .root body.collapse
  | iteration iterator _ _ body => .ofIteration site iterator (.ofLoop site .walk body.collapse)
  | switch _ groups default => .ofSwitch site (groups.map Arm.body) (default.map Prod.snd)
  | attempt body handlers cleanup =>
    .node (.part site .root) [] (body.collapse ::
      (handlers.map (·.body.collapse) ++ (cleanup.map Sheet.collapse).toList))
  | resource s _ body => .withCleanup site s body.collapse

def plan (site : Site) (stmt : Stmt Sheet) : Plan :=
  (stmt.design site).standing site

end Stmt

namespace Scope

def sheet : Scope → Sheet :=
  fold fun frame stmts =>
    ⟨frame.id, frame.locals.isEmpty, stmts.zipIdx.map fun p => p.1.plan ⟨frame.id, p.2⟩⟩

theorem sheet_eq (s : Scope) :
    s.sheet = ⟨s.frame.id, s.frame.locals.isEmpty,
      s.stmts.zipIdx.map fun p => (p.1.map sheet).plan ⟨s.frame.id, p.2⟩⟩ := by
  obtain ⟨frame, stmts⟩ := s
  rw [sheet, fold_mk, List.zipIdx_map, List.map_map]
  rfl

end Scope

/-- The plan of the program: the outermost scope, and the label where the program returns. -/
def Builder.plan (b : Builder) : Plan :=
  .node .body [] [b.top.sheet.collapse, .leaf .returning]

/-! ## Statements that plans stand for -/

namespace Sheet

def covers (sh : Sheet) : List Site :=
  sh.items.flatMap Plan.covers

theorem covers_collapse (sh : Sheet) : sh.collapse.covers = sh.covers := by
  obtain ⟨id, bare, items⟩ := sh
  unfold collapse
  split <;> simp_all [covers]

theorem covers_of_isEmpty {sh : Sheet} (h : sh.isEmpty = true) : sh.covers = [] := by
  rw [isEmpty, Bool.and_eq_true, List.isEmpty_iff] at h
  rw [covers, h.1, List.flatMap_nil]

end Sheet

namespace Plan

variable (site : Site)

theorem covers_ofLinks (k : Nat) (ps : List Plan) (otherwise : Plan) :
    (ofLinks site k ps otherwise).covers = ps.flatMap covers ++ otherwise.covers := by
  induction ps generalizing k with
  | nil => rfl
  | cons p ps ih => simp [ofLinks, ih]

theorem covers_ofLoop (whole : Part) (p : Plan) : (ofLoop site whole p).covers = p.covers := by
  simp [ofLoop]

theorem covers_withCleanup (s : Symbol) (p : Plan) : (withCleanup site s p).covers = p.covers := by
  unfold withCleanup ofDisposal
  split <;> simp

theorem covers_ofIteration (iterator : Symbol) (p : Plan) :
    (ofIteration site iterator p).covers = p.covers := by
  unfold ofIteration
  split
  · exact covers_withCleanup site iterator p
  · simp

theorem covers_ofGroup (group : Option Sheet) (k : Nat) :
    (ofGroup site group k).covers = group.toList.flatMap Sheet.covers := by
  unfold ofGroup
  cases group with
  | none => simp
  | some sh =>
    rw [Option.all_some, Option.map_some, Option.getD_some, Option.toList_some,
      List.flatMap_singleton]
    split
    next hempty => rw [covers_leaf, Sheet.covers_of_isEmpty hempty]
    next => exact sh.covers_collapse

theorem covers_groups (groups : List (Option Sheet)) (k : Nat) :
    ((groups.zipIdx k).map fun g => ofGroup site g.1 g.2).flatMap covers =
      (groups.filterMap id).flatMap Sheet.covers := by
  induction groups generalizing k with
  | nil => rfl
  | cons group groups ih =>
    rw [List.zipIdx_cons, List.map_cons, List.flatMap_cons, ih, covers_ofGroup, List.filterMap_cons]
    cases group <;> simp

theorem covers_ofDefault (falls : Bool) (body : Sheet) :
    (ofDefault site falls body).covers = body.covers := by
  rw [ofDefault, Sheet.covers_collapse]
  cases falls <;> simp [Sheet.covers, Sheet.cons]

theorem covers_ofSwitch (groups : List (Option Sheet)) (default : Option Sheet) :
    (ofSwitch site groups default).covers =
      (groups.filterMap id ++ default.toList).flatMap Sheet.covers := by
  by_cases h : groups = [] → default = none
  · rw [ofSwitch_eq site h, covers_node, List.nil_append, List.flatMap_append,
      List.flatMap_append, covers_groups]
    cases default with
    | none => rfl
    | some body => simp [covers_ofDefault]
  · obtain ⟨rfl, hdefault⟩ := Classical.not_imp.mp h
    obtain ⟨body, rfl⟩ := Option.ne_none_iff_exists'.mp hdefault
    simp [ofSwitch, Sheet.covers_collapse]

end Plan

namespace Stmt

/-- A statement stands at its site, and its scopes cover what is in them. -/
theorem covers_plan (site : Site) (stmt : Stmt Sheet) :
    (stmt.plan site).covers = site :: stmt.scopes.flatMap Sheet.covers := by
  rw [plan, Plan.covers_standing]
  refine congrArg _ ?_
  cases stmt with
  | node n => simp [design, scopes]
  | goto name => simp [design, scopes]
  | conditional links otherwise =>
    rw [design, Plan.covers_ofLinks, scopes, List.flatMap_append, List.flatMap_map,
      List.flatMap_map]
    refine congrArg₂ _ (List.flatMap_congr fun l _ => l.2.covers_collapse) ?_
    cases otherwise <;> simp [Sheet.covers_collapse]
  | loop l body => simp [design, scopes, Plan.covers_ofLoop, Sheet.covers_collapse]
  | iteration iterator collection l body =>
    simp [design, scopes, Plan.covers_ofIteration, Plan.covers_ofLoop, Sheet.covers_collapse]
  | switch value groups default =>
    rw [design, Plan.covers_ofSwitch, List.filterMap_map]
    rfl
  | attempt body handlers cleanup =>
    rw [design, Plan.covers_node, scopes, List.nil_append, List.flatMap_cons, List.flatMap_cons,
      List.flatMap_append, List.flatMap_append, List.flatMap_map, List.flatMap_map,
      Sheet.covers_collapse]
    refine congrArg _ (congrArg₂ _ (List.flatMap_congr fun h _ => h.body.covers_collapse) ?_)
    cases cleanup <;> simp [Sheet.covers_collapse]
  | resource s producer body =>
    simp [design, scopes, Plan.covers_withCleanup, Sheet.covers_collapse]

end Stmt

namespace Scope

/-- What the scopes of the statements have is what the scopes directly inside have. -/
theorem flatMap_scopes_sheet {α : Type} (f : Sheet → List α) (s : Scope) :
    (s.stmts.zipIdx.flatMap fun p => (p.1.map sheet).scopes.flatMap f) =
      s.children.flatMap fun c => f c.sheet := by
  simp only [Stmt.scopes_map, List.flatMap_map]
  rw [children, List.flatMap_assoc]
  conv_rhs => rw [← List.zipIdx_map_fst 0 s.stmts, List.flatMap_map]

/-- The plan of a scope stands for every statement in it once. -/
theorem covers_sheet (s : Scope) : s.sheet.covers.Perm (s.sites.map Prod.fst) := by
  induction s using induct with
  | step s ih =>
    rw [sites_eq, List.map_append, map_fst_rows, List.range_eq_range',
      ← List.zipIdx_map_snd 0 s.stmts, List.map_map, List.map_flatMap, sheet_eq, Sheet.covers,
      List.flatMap_map]
    simp only [Stmt.covers_plan]
    refine (List.map_append_flatMap_perm _ _ _).symm.trans ?_
    rw [flatMap_scopes_sheet]
    exact (List.Perm.flatMap_left _ ih).append_left _

end Scope

/-! ## Purposes -/

/-- What the elements have, one no more than another way, is so for the list. -/
theorem subperm_flatMap {α β : Type} {f g : α → List β} {xs : List α}
    (h : ∀ x ∈ xs, (f x).Subperm (g x)) : (xs.flatMap f).Subperm (xs.flatMap g) :=
  subperm_flatMap_of_forall₂ (List.forall₂_same.mpr fun _ _ => rfl) fun x hx _ heq => heq ▸ h x hx

/-- A list that has no more than one without repeats has none. -/
theorem nodup_of_subperm {α : Type} {xs ys : List α} (h : xs.Subperm ys) (hys : ys.Nodup) :
    xs.Nodup := by
  obtain ⟨zs, hperm, hsub⟩ := h
  exact hperm.nodup_iff.mp (hys.sublist hsub)

/-- The parts that a loop has. -/
def Part.ofLoop (whole : Part) : List Part :=
  [whole, .test, .exit]

/-- The parts that something with a cleanup has. -/
def Part.ofCleanup : List Part :=
  [.root, .acquire, .guard, .release, .call, .spare]

/-- The parts that a statement may have. -/
def Stmt.parts {σ : Type} : Stmt σ → List Part
  | node _ | goto _ | attempt _ _ _ => [.root]
  | conditional links _ => .absent :: (List.range links.length).map .link
  | loop _ _ => Part.ofLoop .root
  | iteration _ _ _ _ => Part.ofCleanup ++ Part.ofLoop .walk
  | switch _ groups _ => .root :: .fall :: (List.range groups.length).map .group
  | resource _ _ _ => Part.ofCleanup

namespace Sheet

/-- The purposes that the nodes for a scope can have. -/
def purposes (sh : Sheet) : List Purpose :=
  .empty sh.id :: .block sh.id :: sh.items.flatMap Plan.purposes

theorem purposes_collapse (sh : Sheet) : sh.collapse.purposes.Sublist sh.purposes := by
  obtain ⟨id, bare, items⟩ := sh
  unfold collapse
  split
  next h =>
    cases h
    simp [purposes]
  next p h =>
    cases h
    simp only [purposes, List.flatMap_singleton]
    exact ((List.Sublist.refl _).cons _).cons _
  next h =>
    cases h
    simp only [purposes, Plan.purposes_node]
    exact (List.Sublist.refl _).cons _

end Sheet

namespace Plan

variable (site : Site)

theorem purposes_ofLinks (k : Nat) (ps : List Plan) (otherwise : Plan) :
    (ofLinks site k ps otherwise).purposes.Perm
      ((List.range' k ps.length).map (fun k => .part site (.link k)) ++
        (ps.flatMap purposes ++ otherwise.purposes)) := by
  induction ps generalizing k with
  | nil => exact .rfl
  | cons p ps ih =>
    rw [ofLinks, purposes_node, List.flatMap_cons, List.flatMap_singleton, List.length_cons,
      List.range'_succ, List.map_cons, List.flatMap_cons, List.cons_append, List.append_assoc]
    refine List.Perm.cons _ (((ih (k + 1)).append_left _).trans ?_)
    exact List.perm_append_comm_assoc _ _ _

theorem purposes_ofLoop (whole : Part) (p : Plan) :
    (ofLoop site whole p).purposes.Perm
      ((Part.ofLoop whole).map (.part site) ++ p.purposes) := by
  simp only [ofLoop, purposes_node, purposes_leaf, List.flatMap_cons, List.flatMap_nil,
    List.append_nil]
  exact (List.perm_append_singleton _ _).cons _ |>.cons _

theorem purposes_ofDisposal (s : Symbol) :
    (ofDisposal site s).purposes.Sublist ([.release, .call, .spare].map (.part site)) := by
  unfold ofDisposal
  split <;> simp

theorem purposes_withCleanup (s : Symbol) (p : Plan) :
    (withCleanup site s p).purposes.Subperm
      (Part.ofCleanup.map (.part site) ++ p.purposes) := by
  simp only [withCleanup, purposes_node, purposes_leaf, List.flatMap_cons, List.flatMap_nil,
    List.append_nil]
  have hdisposal := (purposes_ofDisposal site s).subperm
  have hparts : (p.purposes ++ (ofDisposal site s).purposes).Subperm _ :=
    List.perm_append_comm.subperm.trans ((List.subperm_append_right p.purposes).mpr hdisposal)
  exact (List.subperm_cons _).mpr ((List.subperm_cons _).mpr ((List.subperm_cons _).mpr hparts))

theorem purposes_ofIteration (iterator : Symbol) (p : Plan) :
    (ofIteration site iterator p).purposes.Subperm
      (Part.ofCleanup.map (.part site) ++ p.purposes) := by
  unfold ofIteration
  split
  · exact purposes_withCleanup site iterator p
  · simp only [purposes_node, purposes_leaf, List.flatMap_cons, List.flatMap_nil, List.append_nil]
    have hparts : [Part.root, .acquire].Sublist Part.ofCleanup :=
      .cons_cons _ (.cons_cons _ (List.nil_sublist _))
    exact ((hparts.map (Purpose.part site)).append (.refl p.purposes)).subperm

theorem purposes_ofGroup (group : Option Sheet) (k : Nat) :
    (ofGroup site group k).purposes.Subperm
      (.part site (.group k) :: group.toList.flatMap Sheet.purposes) := by
  have hleaf : (leaf (.part site (.group k))).purposes.Subperm
      (.part site (.group k) :: group.toList.flatMap Sheet.purposes) := by
    rw [purposes_leaf]
    exact (List.subperm_cons _).mpr List.nil_subperm
  unfold ofGroup
  split
  · exact hleaf
  · cases group with
    | none => exact hleaf
    | some sh =>
      simp only [Option.map_some, Option.getD_some, Option.toList_some, List.flatMap_singleton]
      exact (sh.purposes_collapse.cons _).subperm

theorem purposes_groups (groups : List (Option Sheet)) (k : Nat) :
    (((groups.zipIdx k).map fun g => ofGroup site g.1 g.2).flatMap purposes).Subperm
      ((List.range' k groups.length).map (fun k => .part site (.group k)) ++
        (groups.filterMap id).flatMap Sheet.purposes) := by
  induction groups generalizing k with
  | nil => exact List.nil_subperm
  | cons group groups ih =>
    rw [List.zipIdx_cons, List.map_cons, List.flatMap_cons, List.length_cons, List.range'_succ,
      List.map_cons, List.filterMap_cons, List.cons_append]
    refine ((purposes_ofGroup site group k).append (ih (k + 1))).trans ?_
    rw [List.cons_append, List.subperm_cons]
    refine (List.perm_append_comm_assoc _ _ _).subperm.trans ((List.subperm_append_left _).mpr ?_)
    cases group with
    | none => exact List.Subperm.refl _
    | some sh => exact (List.Perm.of_eq (by simp)).subperm

theorem purposes_ofDefault (falls : Bool) (body : Sheet) :
    (ofDefault site falls body).purposes.Subperm (.part site .fall :: body.purposes) := by
  unfold ofDefault
  split
  · refine ((body.cons _).purposes_collapse).subperm.trans ?_
    simp only [Sheet.purposes, Sheet.cons, List.flatMap_cons, purposes_leaf, List.singleton_append]
    have front : ([Purpose.empty body.id, .block body.id] ++
        Purpose.part site .fall :: body.items.flatMap purposes).Perm
          (.part site .fall :: body.purposes) := List.perm_middle
    exact front.subperm
  · exact (body.purposes_collapse.cons _).subperm

theorem purposes_ofSwitch (groups : List (Option Sheet)) (default : Option Sheet) :
    (ofSwitch site groups default).purposes.Subperm
      ((Part.root :: .fall :: (List.range groups.length).map .group).map (.part site) ++
        (groups.filterMap id ++ default.toList).flatMap Sheet.purposes) := by
  by_cases h : groups = [] → default = none
  · -- The label for groups that fall through comes with the default here, and before the groups
    -- in the list of parts.
    rw [ofSwitch_eq site h, purposes_node, List.flatMap_append, List.flatMap_append,
      List.map_cons, List.cons_append, List.subperm_cons, List.map_cons, List.map_map]
    have hgroups := purposes_groups site groups 0
    have hdefault : ((default.map (ofDefault site
        (groups.any (·.all Sheet.isEmpty)))).toList.flatMap purposes).Subperm
          (.part site .fall :: default.toList.flatMap Sheet.purposes) := by
      cases default with
      | none => exact List.nil_subperm
      | some body =>
        simp only [Option.map_some, Option.toList_some, List.flatMap_singleton]
        exact purposes_ofDefault site _ body
    rw [List.range_eq_range']
    refine (hgroups.append hdefault).trans (List.Perm.subperm ?_)
    refine List.perm_middle.trans (List.Perm.cons _ ?_)
    rw [List.append_assoc]
    exact .rfl
  · obtain ⟨rfl, hdefault⟩ := Classical.not_imp.mp h
    obtain ⟨body, rfl⟩ := Option.ne_none_iff_exists'.mp hdefault
    simp only [ofSwitch, List.filterMap_nil, List.nil_append, Option.toList_some,
      List.flatMap_singleton]
    exact (body.purposes_collapse.trans (List.sublist_append_right _ _)).subperm

end Plan

namespace Stmt

variable {σ τ : Type}

theorem parts_map (f : σ → τ) (stmt : Stmt σ) : (stmt.map f).parts = stmt.parts := by
  cases stmt <;> simp [map, parts]

theorem parts_nodup (stmt : Stmt σ) : stmt.parts.Nodup := by
  cases stmt with
  | conditional links otherwise =>
    refine List.nodup_cons.mpr ⟨by simp, ?_⟩
    exact List.nodup_range.map fun _ _ h => Part.link.inj h
  | switch value groups default =>
    refine List.nodup_cons.mpr ⟨by simp, List.nodup_cons.mpr ⟨by simp, ?_⟩⟩
    exact List.nodup_range.map fun _ _ h => Part.group.inj h
  | _ => simp [parts, Part.ofLoop, Part.ofCleanup]

/-- The nodes for a statement are there for its parts and for what is in its scopes. -/
theorem purposes_plan (site : Site) (stmt : Stmt Sheet) :
    (stmt.plan site).purposes.Subperm
      (stmt.parts.map (.part site) ++ stmt.scopes.flatMap Sheet.purposes) := by
  rw [plan, Plan.purposes_standing]
  have closed : ∀ sh : Sheet, sh.collapse.purposes.Subperm sh.purposes := fun sh =>
    sh.purposes_collapse.subperm
  cases stmt with
  | node n => exact (List.Perm.of_eq (by simp [design, parts, scopes])).subperm
  | goto name => exact (List.Perm.of_eq (by simp [design, parts, scopes])).subperm
  | conditional links otherwise =>
    -- The alternative comes last here, and first in the list of parts.
    refine (Plan.purposes_ofLinks site 0 _ _).subperm.trans ?_
    rw [parts, scopes, List.flatMap_append, List.length_map, List.map_cons, List.map_map,
      List.flatMap_map, List.flatMap_map, ← List.range_eq_range', List.cons_append]
    have hlinks : (links.flatMap fun l => l.2.collapse.purposes).Subperm
        (links.flatMap fun l => l.2.purposes) := subperm_flatMap fun l _ => closed l.2
    have hotherwise : ((otherwise.map Sheet.collapse).getD
        (.leaf (.part site .absent))).purposes.Subperm
          (.part site .absent :: otherwise.toList.flatMap Sheet.purposes) := by
      cases otherwise with
      | none => simp
      | some body =>
        simp only [Option.map_some, Option.getD_some, Option.toList_some, List.flatMap_singleton]
        exact (body.purposes_collapse.cons _).subperm
    refine ((List.subperm_append_left _).mpr (hlinks.append hotherwise)).trans ?_
    rw [← List.append_assoc]
    refine List.perm_middle.subperm.trans ?_
    rw [List.append_assoc]
    exact List.Subperm.refl _
  | loop l body =>
    rw [design, scopes, List.flatMap_singleton]
    refine (Plan.purposes_ofLoop site .root _).subperm.trans ?_
    exact (List.subperm_append_left _).mpr (closed body)
  | iteration iterator collection l body =>
    rw [design, scopes, List.flatMap_singleton, parts, List.map_append, List.append_assoc]
    refine (Plan.purposes_ofIteration site iterator _).trans ((List.subperm_append_left _).mpr ?_)
    refine (Plan.purposes_ofLoop site .walk _).subperm.trans ?_
    exact (List.subperm_append_left _).mpr (closed body)
  | switch value groups default =>
    have hswitch := Plan.purposes_ofSwitch site (groups.map Arm.body) (default.map Prod.snd)
    rw [List.filterMap_map, List.length_map] at hswitch
    exact hswitch
  | attempt body handlers cleanup =>
    rw [design, Plan.purposes_node, scopes, List.flatMap_cons, List.flatMap_append,
      List.flatMap_cons, List.flatMap_append, List.flatMap_map, List.flatMap_map]
    have hhandlers : (handlers.flatMap fun h => h.body.collapse.purposes).Subperm
        (handlers.flatMap fun h => h.body.purposes) := subperm_flatMap fun h _ => closed h.body
    have hcleanup : ((cleanup.map Sheet.collapse).toList.flatMap Plan.purposes).Subperm
        (cleanup.toList.flatMap Sheet.purposes) := by
      cases cleanup with
      | none => exact List.Subperm.refl _
      | some c => simpa using closed c
    exact (List.subperm_cons _).mpr ((closed body).append (hhandlers.append hcleanup))
  | resource s producer body =>
    rw [design, scopes, List.flatMap_singleton]
    refine (Plan.purposes_withCleanup site s _).trans ?_
    exact (List.subperm_append_left _).mpr (closed body)

end Stmt

namespace Scope

/-- The purposes that a scope itself has nodes for, whatever is in it. -/
def purposes (s : Scope) : List Purpose :=
  .empty s.frame.id :: .block s.frame.id ::
    s.stmts.zipIdx.flatMap fun p => p.1.parts.map (.part ⟨s.frame.id, p.2⟩)

theorem purposes_sheet (s : Scope) :
    s.sheet.purposes.Subperm (s.subscopes.flatMap purposes) := by
  induction s using induct with
  | step s ih =>
    have hplans : (s.stmts.zipIdx.flatMap fun p =>
        ((p.1.map sheet).plan ⟨s.frame.id, p.2⟩).purposes).Subperm
          (s.stmts.zipIdx.flatMap fun p => p.1.parts.map (.part ⟨s.frame.id, p.2⟩) ++
            (p.1.map sheet).scopes.flatMap Sheet.purposes) := by
      refine subperm_flatMap fun p _ => ?_
      rw [← Stmt.parts_map sheet p.1]
      exact Stmt.purposes_plan _ _
    have hscopes : (s.children.flatMap fun c => c.sheet.purposes).Subperm
        (s.children.flatMap fun c => c.subscopes.flatMap purposes) := subperm_flatMap ih
    rw [sheet_eq, Sheet.purposes, List.flatMap_map, subscopes_eq, List.flatMap_cons, purposes,
      List.cons_append, List.cons_append, List.subperm_cons, List.subperm_cons, List.flatMap_assoc]
    refine hplans.trans ((List.flatMap_append_perm _ _ _).symm.subperm.trans ?_)
    rw [flatMap_scopes_sheet]
    exact (List.subperm_append_left _).mpr hscopes

theorem scope?_of_mem_purposes {s : Scope} {x : Purpose} (h : x ∈ s.purposes) :
    x.scope? = some s.frame.id := by
  rw [purposes, List.mem_cons, List.mem_cons, List.mem_flatMap] at h
  rcases h with rfl | rfl | ⟨p, -, hx⟩
  · rfl
  · rfl
  · obtain ⟨part, -, rfl⟩ := List.mem_map.mp hx
    rfl

theorem nodup_purposes (s : Scope) : s.purposes.Nodup := by
  refine List.nodup_cons.mpr ⟨by simp, List.nodup_cons.mpr ⟨by simp, ?_⟩⟩
  rw [List.nodup_flatMap]
  constructor
  · intro p _
    exact p.1.parts_nodup.map fun _ _ h => (Purpose.part.inj h).2
  · have hindex : (s.stmts.zipIdx.map Prod.snd).Nodup := by
      rw [List.zipIdx_map_snd]
      exact List.nodup_range'
    refine (List.pairwise_map.mp hindex).imp fun {p q} hne x hp hq => hne ?_
    obtain ⟨part, -, rfl⟩ := List.mem_map.mp hp
    obtain ⟨part', -, heq⟩ := List.mem_map.mp hq
    exact ((Site.mk.inj (Purpose.part.inj heq).1).2).symm

end Scope

namespace Builder

variable {b : Builder}

/-- The plan stands for every statement once. -/
theorem Numbered.covers_plan (h : b.Numbered) :
    b.plan.covers.Nodup ∧ ∀ site, site ∈ b.plan.covers ↔ ∃ stmt, b.at? site = some stmt := by
  have hperm : b.plan.covers.Perm (b.top.sites.map Prod.fst) := by
    rw [plan, Plan.covers_node, List.nil_append, List.flatMap_cons, List.flatMap_singleton,
      Plan.covers_leaf, List.append_nil, Sheet.covers_collapse]
    exact b.top.covers_sheet
  refine ⟨hperm.nodup_iff.mpr h.distinct.sites_nodup, fun site => ?_⟩
  rw [hperm.mem_iff, List.mem_map]
  constructor
  · rintro ⟨⟨site, k⟩, hsite, rfl⟩
    obtain ⟨stmt, hat, -⟩ := h.mem_sites.mp hsite
    exact ⟨stmt, hat⟩
  · rintro ⟨stmt, hat⟩
    exact ⟨(site, stmt.kind), h.mem_sites.mpr ⟨stmt, hat, rfl⟩, rfl⟩

/-- No two nodes of the plan are there for one purpose. -/
theorem Numbered.purposes_nodup (h : b.Numbered) : b.plan.purposes.Nodup := by
  have hsub : b.top.sheet.collapse.purposes.Subperm (b.top.subscopes.flatMap Scope.purposes) :=
    b.top.sheet.purposes_collapse.subperm.trans b.top.purposes_sheet
  have hscope : ∀ x ∈ b.top.sheet.collapse.purposes, x.scope? ≠ none := by
    intro x hx hnone
    obtain ⟨s, -, hs⟩ := List.mem_flatMap.mp (hsub.subset hx)
    rw [Scope.scope?_of_mem_purposes hs] at hnone
    cases hnone
  have hnodup : b.top.sheet.collapse.purposes.Nodup :=
    nodup_of_subperm hsub (h.distinct.nodup_flatMap Purpose.scope?
      (fun _ _ => Scope.scope?_of_mem_purposes) Scope.nodup_purposes)
  rw [plan, Plan.purposes_node, List.flatMap_cons, List.flatMap_singleton, Plan.purposes_leaf,
    List.nodup_cons, List.mem_append, List.mem_singleton, List.nodup_append]
  refine ⟨?_, hnodup, List.nodup_singleton _, ?_⟩
  · rintro (hbody | hbody)
    · exact hscope _ hbody rfl
    · cases hbody
  · rintro x hx _ hreturning rfl
    obtain rfl := List.mem_singleton.mp hreturning
    exact hscope _ hx rfl

end Builder

end StructuredFlow
