import StructuredFlow.Proofs.NamesStable
import StructuredFlow.Proofs.Sites

/-
  The arms of a switch, opened one by one. The groups come in behind one another and the default
  beside them, so it does not matter when the default is opened: among the groups it makes the same
  builder as behind them (`Build.default_opened_last`), because what a switch stands in is what its
  match values are resolved in (`Builder.Numbered.matchValue_setStmt`).
-/

namespace StructuredFlow

namespace Scope

/-- Of two statements that are put into one place the second counts. -/
theorem update_setStmt (id : ScopeId) (i : Nat) (x y : Stmt Scope) (s : Scope) :
    (s.update id (Builder.setStmt i x)).update id (Builder.setStmt i y) =
      s.update id (Builder.setStmt i y) := by
  induction s using induct with
  | step s ih =>
    have hinside : s.stmts.map (Stmt.map (update id (Builder.setStmt i y)) ∘
        Stmt.map (update id (Builder.setStmt i x))) =
          s.stmts.map (Stmt.map (update id (Builder.setStmt i y))) := by
      refine List.map_congr_left fun stmt hstmt => (Stmt.map_map _ _ stmt).trans ?_
      exact Stmt.map_congr fun c hc => ih c (mem_children.mpr ⟨stmt, hstmt, hc⟩)
    rw [update_eq _ _ s, update_eq _ _ s]
    split
    next hid =>
      have hid' : (Builder.setStmt i x ⟨s.frame, s.stmts.map (Stmt.map
          (update id (Builder.setStmt i x)))⟩).frame.id = id := hid
      rw [update_eq, if_pos hid']
      simp only [Builder.setStmt, List.map_set, List.set_set, List.map_map]
      exact congrArg (fun stmts => mk s.frame (List.set stmts i y)) hinside
    next hid =>
      rw [update_eq, if_neg hid, List.map_map, hinside]

end Scope

/-- What makes a group of a switch: a group with its first value, or one more value of a group. -/
inductive CaseStep where
  | group (value : Fragment)
  | value (group : Nat) (value : Fragment)

namespace CaseStep

def fragment : CaseStep → Fragment
  | group f | value _ f => f

def grow (groups : List (Arm (Option Scope))) (e : Expr) : CaseStep → List (Arm (Option Scope))
  | group _ => groups ++ [⟨[e], none⟩]
  | value k _ => groups.modify k fun g => { g with values := g.values ++ [e] }

end CaseStep

namespace Build

open Builder Outcome

def caseStep (site : Site) : CaseStep → Build Unit
  | .group f => do
    let _ ← openGroup site f
    return ()
  | .value k f => widenGroup site k f

def caseSteps (site : Site) : List CaseStep → Build Unit
  | [] => return ()
  | step :: steps => do
    caseStep site step
    caseSteps site steps

variable {b b' : Builder} {site : Site} {step : CaseStep} {u : Unit} {id : ScopeId}

theorem construct?_at (site : Site) (b : Builder) : construct? site b = .ok (b.at? site) b :=
  rfl

/-- At a switch the value is resolved, and the switch is put back with the group as it is then. -/
theorem caseStep_run {v : Expr} {groups : List (Arm (Option Scope))}
    {default : Option (Label × Scope)} (hat : b.at? site = some (.switch v groups default)) :
    caseStep site step b =
      (matchValue site v step.fragment >>= fun e =>
        replaceConstruct site (.switch v (step.grow groups e) default)) b := by
  cases step with
  | group f =>
    rw [caseStep, openGroup, bind_assoc, andThen_of_ok (construct?_at site b), hat]
    simp only [bind_assoc, pure_bind]
    rfl
  | value k f =>
    rw [caseStep, widenGroup, andThen_of_ok (construct?_at site b), hat]
    rfl

theorem exists_of_caseStep (h : caseStep site step b = .ok u b') :
    ∃ v groups default, b.at? site = some (.switch v groups default) := by
  cases step with
  | group f =>
    obtain ⟨_, _, h, -⟩ := andThen_ok.mp h
    obtain ⟨old, hold, h⟩ := (construct?_reads site).andThen_ok h
    split at h
    next => exact ⟨_, _, _, (site_of_construct? hold).symm⟩
    next => exact (throw_ok.mp h).elim
  | value k f =>
    obtain ⟨old, hold, h⟩ := (construct?_reads site).andThen_ok h
    split at h
    next => exact ⟨_, _, _, (site_of_construct? hold).symm⟩
    next => exact (throw_ok.mp h).elim

theorem caseStep_ok :
    caseStep site step b = .ok u b' ↔
      ∃ v groups default e, b.at? site = some (.switch v groups default) ∧
        matchValue site v step.fragment b = .ok e b ∧
        b' = b.changing site.scope
          (setStmt site.index (.switch v (step.grow groups e) default)) := by
  constructor
  · intro h
    obtain ⟨v, groups, default, hat⟩ := exists_of_caseStep h
    rw [caseStep_run hat] at h
    obtain ⟨e, he, h⟩ := (matchValue_reads site v step.fragment).andThen_ok h
    exact ⟨v, groups, default, e, hat, he, replaceConstruct_ok.mp h⟩
  · rintro ⟨v, groups, default, e, hat, he, rfl⟩
    rw [caseStep_run hat, andThen_of_ok he]
    exact replaceConstruct_ok.mpr rfl

theorem openDefault_ok :
    openDefault site b = .ok id b' ↔
      ∃ v groups, b.at? site = some (.switch v groups none) ∧ id = b.scopeCount ∧
        b' = (b.taking 1 0 1).changing site.scope (setStmt site.index
          (.switch v groups (some (Label.internal b.labelCount, b.newScope .plain)))) := by
  constructor
  · intro h
    obtain ⟨old, hold, h⟩ := (construct?_reads site).andThen_ok h
    split at h
    next v groups =>
      simp only [andThen_ok, makeScope_ok, makeLabel_ok, replaceConstruct_ok, pure_ok] at h
      obtain ⟨_, _, ⟨rfl, rfl⟩, _, _, ⟨rfl, rfl⟩, _, _, rfl, rfl, rfl⟩ := h
      exact ⟨v, groups, (site_of_construct? hold).symm, rfl, rfl⟩
    next => exact (throw_ok.mp h).elim
    next => exact (throw_ok.mp h).elim
  · rintro ⟨v, groups, hat, rfl, rfl⟩
    rw [openDefault, andThen_of_ok (construct?_at site b), hat]
    rfl

theorem matchValue_ok {v e : Expr} {f : Fragment} :
    matchValue site v f b = .ok e b' ↔
      (∃ c, b.top.chain? site.scope = some c) ∧ f.resolveIn (b.context site.scope) = .ok e ∧
        Suits v.type e ∧ b' = b := by
  simp only [matchValue, andThen_ok, resolve_ok, requireType_ok, pure_ok]
  constructor
  · rintro ⟨_, _, ⟨hc, hf, rfl⟩, _, _, ⟨suits, rfl⟩, rfl, rfl⟩
    exact ⟨hc, hf, suits, rfl⟩
  · rintro ⟨hc, hf, suits, rfl⟩
    exact ⟨_, _, ⟨hc, hf, rfl⟩, (), _, ⟨suits, rfl⟩, rfl, rfl⟩

end Build

namespace Builder

variable {F : Fragment → Prop} {b b₁ : Builder} {site : Site} {v e : Expr} {f : Fragment} {c : Chain}
  {old new : Stmt Scope}

/-- A construct that grows keeps what match values are resolved to where it stands. -/
theorem Grows.matchValue_iff (h : b.Grows F c old new b₁) (hb : b.Numbered)
    (hb' : (b₁.changing site.scope (setStmt site.index new)).Numbered)
    (hat : b.at? site = some old) :
    Build.matchValue site v f (b₁.changing site.scope (setStmt site.index new)) =
        .ok e (b₁.changing site.scope (setStmt site.index new)) ↔
      Build.matchValue site v f b = .ok e b := by
  obtain ⟨outer, s, place, hid, standing⟩ := exists_of_at? hat
  have hc := place.chain?_eq hb.distinct
  have htop : (b₁.changing site.scope (setStmt site.index new)).top =
      b.top.update s.frame.id (setStmt site.index new) := by
    rw [changing, h.top_eq, hid]
  have hc' := hb.chain?_update (htop ▸ hb'.distinct) place rfl (h.keeps_children standing) hc
  rw [← htop, hid] at hc'
  rw [hid] at hc
  have hoptions : (b₁.changing site.scope (setStmt site.index new)).options = b.options := by
    cases h <;> rfl
  have hchain : (b₁.changing site.scope (setStmt site.index new)).chain site.scope =
      b.chain site.scope := by
    rw [chain, chain, hc, hc']
  have hcontext : (b₁.changing site.scope (setStmt site.index new)).context site.scope =
      b.context site.scope := by
    unfold context
    unfold lookup isVisible
    rw [hchain, hoptions]
  rw [Build.matchValue_ok, Build.matchValue_ok, hcontext, hc, hc']
  simp

end Builder

namespace Build

open Builder Outcome

variable {F : Fragment → Prop} {b b' : Builder} {site : Site} {step : CaseStep} {id : ScopeId}

theorem caseStep_keeps (site : Site) (step : CaseStep) :
    Keeps (fun _ => True) (caseStep site step) := by
  cases step with
  | group f => exact (openGroup_keeps site trivial).map fun _ => ()
  | value k f => exact widenGroup_keeps site k trivial

/-- The switch that a case is made in grows. -/
theorem grows_of_matchValue {v e : Expr} (groups : List (Arm (Option Scope)))
    (default : Option (Label × Scope)) (h : matchValue site v step.fragment b = .ok e b) :
    ∃ c, b.Grows (fun _ => True) c (.switch v groups default)
      (.switch v (step.grow groups e) default) b := by
  obtain ⟨c, -, settled, suits⟩ := matchValue_settles (F := fun _ => True) trivial h
  cases step with
  | group f => exact ⟨c, .group settled suits⟩
  | value k f => exact ⟨c, .widen k settled suits⟩

/-- A default that is opened before a case is made is the same as one that is opened behind. -/
theorem openDefault_caseStep (hb : b.Built fun _ => True) (step : CaseStep) :
    (openDefault site >>= fun id => caseStep site step >>= fun _ => return id) b = .ok id b' ↔
      (caseStep site step >>= fun _ => openDefault site) b = .ok id b' := by
  have opens : ∀ v groups, b.Grows (fun _ => True) [] (.switch v groups none)
      (.switch v groups (some (Label.internal b.labelCount, b.newScope .plain))) _ :=
    fun _ _ => .default
  simp only [andThen_ok, pure_ok]
  constructor
  · rintro ⟨_, b₁, hdefault, _, b₂, hstep, rfl, rfl⟩
    have hb₁ := hb.edits ((openDefault_keeps site).done hb hdefault)
    obtain ⟨v, groups, hat, rfl, rfl⟩ := openDefault_ok.mp hdefault
    have hat₁ := (opens v groups).at?_setStmt hb.numbered hb₁.numbered hat rfl
    obtain ⟨_, _, _, e, hat', hmatch, rfl⟩ := caseStep_ok.mp hstep
    cases hat₁.symm.trans hat'
    have hmatch' := ((opens v groups).matchValue_iff hb.numbered hb₁.numbered hat).mp hmatch
    have hstep' := (caseStep_ok (u := ())).mpr ⟨v, groups, none, e, hat, hmatch', rfl⟩
    have hb₂ := hb.edits ((caseStep_keeps site step).done hb hstep')
    obtain ⟨c, grows⟩ := grows_of_matchValue groups none hmatch'
    have hat₂ := grows.at?_setStmt hb.numbered hb₂.numbered hat rfl
    refine ⟨(), _, hstep', openDefault_ok.mpr ⟨v, _, hat₂, rfl, ?_⟩⟩
    simp only [changing, taking, newScope, Scope.update_setStmt]
  · rintro ⟨_, b₁, hstep, hdefault⟩
    have hb₁ := hb.edits ((caseStep_keeps site step).done hb hstep)
    obtain ⟨v, groups, default, e, hat, hmatch, rfl⟩ := caseStep_ok.mp hstep
    obtain ⟨c, grows⟩ := grows_of_matchValue groups default hmatch
    have hat₁ := grows.at?_setStmt hb.numbered hb₁.numbered hat rfl
    obtain ⟨_, _, hat', rfl, rfl⟩ := openDefault_ok.mp hdefault
    cases hat₁.symm.trans hat'
    have hdefault' := openDefault_ok.mpr ⟨v, groups, hat, rfl, rfl⟩
    have hb₂ := hb.edits ((openDefault_keeps site).done hb hdefault')
    have hat₂ := (opens v groups).at?_setStmt hb.numbered hb₂.numbered hat rfl
    have hmatch' := ((opens v groups).matchValue_iff hb.numbered hb₂.numbered hat).mpr hmatch
    have hstep' := (caseStep_ok (u := ())).mpr ⟨v, groups, _, e, hat₂, hmatch', rfl⟩
    refine ⟨_, _, hdefault', (), _, hstep', rfl, ?_⟩
    simp only [changing, taking, newScope, Scope.update_setStmt]

theorem openDefault_caseSteps (hb : b.Built fun _ => True) (steps : List CaseStep) :
    (openDefault site >>= fun id => caseSteps site steps >>= fun _ => return id) b = .ok id b' ↔
      (caseSteps site steps >>= fun _ => openDefault site) b = .ok id b' := by
  induction steps generalizing b with
  | nil => simp [caseSteps]
  | cons step steps ih =>
    rw [caseSteps, bind_assoc]
    constructor
    · intro h
      obtain ⟨_, b₁, hdefault, h⟩ := andThen_ok.mp h
      rw [bind_assoc] at h
      obtain ⟨_, b₂, hstep, h⟩ := andThen_ok.mp h
      have hswap := (openDefault_caseStep hb step).mp
        (andThen_ok.mpr ⟨_, b₁, hdefault, andThen_ok.mpr ⟨_, b₂, hstep, rfl⟩⟩)
      obtain ⟨_, b₃, hstep', hdefault'⟩ := andThen_ok.mp hswap
      have hb₃ := hb.edits ((caseStep_keeps site step).done hb hstep')
      exact andThen_ok.mpr ⟨_, b₃, hstep', (ih hb₃).mp (andThen_ok.mpr ⟨_, b₂, hdefault', h⟩)⟩
    · intro h
      obtain ⟨_, b₁, hstep, h⟩ := andThen_ok.mp h
      have hb₁ := hb.edits ((caseStep_keeps site step).done hb hstep)
      obtain ⟨_, b₂, hdefault, h⟩ := andThen_ok.mp ((ih hb₁).mpr h)
      have hswap := (openDefault_caseStep hb step).mpr
        (andThen_ok.mpr ⟨_, b₁, hstep, hdefault⟩)
      obtain ⟨_, b₃, hdefault', hrest⟩ := andThen_ok.mp hswap
      obtain ⟨_, b₄, hstep', hpure⟩ := andThen_ok.mp hrest
      obtain ⟨rfl, rfl⟩ := pure_ok.mp hpure
      refine andThen_ok.mpr ⟨_, b₃, hdefault', ?_⟩
      rw [bind_assoc]
      exact andThen_ok.mpr ⟨_, b₂, hstep', h⟩

theorem caseSteps_append (site : Site) (before after : List CaseStep) :
    caseSteps site (before ++ after) =
      (caseSteps site before >>= fun _ => caseSteps site after) := by
  induction before with
  | nil => rfl
  | cons step before ih => rw [List.cons_append, caseSteps, caseSteps, ih, bind_assoc]

theorem caseSteps_built (hb : b.Built fun _ => True) {steps : List CaseStep}
    (h : caseSteps site steps b = .ok u b') : b'.Built fun _ => True := by
  induction steps generalizing b with
  | nil => exact (pure_ok.mp h).2 ▸ hb
  | cons step steps ih =>
    obtain ⟨_, b₁, hstep, h⟩ := andThen_ok.mp h
    exact ih (hb.edits ((caseStep_keeps site step).done hb hstep)) h

/-- The default may be opened among the cases: it makes the same builder as behind them. -/
theorem default_opened_last (hb : b.Built fun _ => True) (before after : List CaseStep) :
    (do
      caseSteps site before
      let id ← openDefault site
      caseSteps site after
      return id) b = .ok id b' ↔
    (do
      caseSteps site (before ++ after)
      openDefault site) b = .ok id b' := by
  rw [caseSteps_append, bind_assoc, andThen_ok, andThen_ok]
  refine exists_congr fun u => exists_congr fun b₁ => and_congr_right fun h => ?_
  exact openDefault_caseSteps (caseSteps_built hb h) after

end Build

end StructuredFlow
