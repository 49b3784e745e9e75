import StructuredFlow.Proofs.AssemblyShape
import StructuredFlow.Proofs.NamesStable
import StructuredFlow.Proofs.Sites

/-
  What keeps a program from being assembled. A statement may offend by itself: a jump to a label that
  was never placed, a switch without alternatives, a guarded region without handler and cleanup. The
  offences of a scope are listed in the order of assembly, each statement's own before those inside
  of it (`Scope.offences`); assembly fails with the first one, and is done if there is none
  (`Builder.assemble_error_iff`, `Builder.assemble_ok_iff`). Since every scope that was made is in the
  tree and what was put into a scope stays there, nothing escapes (`Reachable.assembles_iff`).
-/

namespace StructuredFlow

/-! ## The error of an assembly -/

namespace Assembled

variable {α β : Type}

/-- What the assembly fails with. -/
def error? : Assembled α → Option BuildError
  | .ok _ => none
  | .error e => some e

theorem error?_eq_some {x : Assembled α} {e : BuildError} : error? x = some e ↔ x = .error e := by
  cases x with
  | ok a => exact ⟨nofun, nofun⟩
  | error e' => exact ⟨fun h => congrArg _ (Option.some.inj h), fun h => by cases h; rfl⟩

theorem error?_eq_none {x : Assembled α} : error? x = none ↔ ∃ a, x = .ok a := by
  cases x with
  | ok a => exact ⟨fun _ => ⟨a, rfl⟩, fun _ => rfl⟩
  | error e => exact ⟨nofun, nofun⟩

/-- The first of two steps to fail is what fails, if the second does not depend on the first. -/
theorem error?_andThen {x : Assembled α} {f : α → Assembled β} {o : Option BuildError}
    (h : ∀ a, error? (f a) = o) : error? (x >>= f) = (error? x).or o := by
  cases x with
  | ok a => exact h a
  | error e => rfl

theorem error?_map (x : Assembled α) (g : α → β) :
    error? (x >>= fun a => return g a) = error? x := by
  cases x <;> rfl

theorem error?_mapM (f : α → Assembled β) (xs : List α) :
    error? (xs.mapM f) = xs.findSome? fun x => error? (f x) := by
  induction xs with
  | nil => rfl
  | cons x xs ih =>
    rw [List.mapM_cons, List.findSome?_cons, error?_andThen fun a => error?_map _ _, ih]
    cases error? (f x) <;> rfl

/-- The first error of all, if each element has a list of errors and fails with the first of it. -/
theorem findSome?_eq_head? {ε : Type} {f : α → Option ε} {errors : α → List ε} {xs : List α}
    (h : ∀ x ∈ xs, f x = (errors x).head?) : xs.findSome? f = (xs.flatMap errors).head? := by
  induction xs with
  | nil => rfl
  | cons x xs ih =>
    obtain ⟨hx, hxs⟩ := List.forall_mem_cons.mp h
    rw [List.findSome?_cons, ih hxs, hx, List.flatMap_cons, List.head?_append]
    cases (errors x).head? <;> rfl

theorem error?_option_mapM (f : α → Assembled β) (o : Option α) :
    error? (o.mapM f) = o.toList.findSome? fun x => error? (f x) := by
  cases o with
  | none => rfl
  | some x =>
    refine (error?_map (f x) some).trans ?_
    rw [Option.toList_some, List.findSome?_cons]
    cases error? (f x) <;> rfl

end Assembled

/-! ## Statements -/

namespace Stmt

open Assembled

variable {σ τ : Type} {label? : String → Option Label} {close : Block → Node}

/-- What assembly has against the statement itself, whatever is inside of it. -/
def offence? (label? : String → Option Label) : Stmt σ → Option BuildError
  | goto name => if (label? name).isSome then none else some (.unknownLabel name)
  | switch _ [] none => some .emptyBranch
  | attempt _ [] none => some .emptyTry
  | _ => none

theorem offence?_map (f : σ → τ) (s : Stmt σ) :
    (s.map f).offence? label? = s.offence? label? := by
  cases s with
  | switch value groups default => cases groups <;> cases default <;> rfl
  | attempt body handlers cleanup => cases handlers <;> cases cleanup <;> rfl
  | _ => rfl

/-- A statement without offence is complete in itself: a jump has its label, a switch has a group or
a default, a guarded region has a handler or a cleanup. -/
theorem offence?_eq_none {s : Stmt σ} :
    s.offence? label? = none ↔
      (∀ name, s = .goto name → ∃ l, label? name = some l) ∧
      (∀ value groups default, s = .switch value groups default →
        groups ≠ [] ∨ default.isSome = true) ∧
      ∀ body handlers cleanup, s = .attempt body handlers cleanup →
        handlers ≠ [] ∨ cleanup.isSome = true := by
  cases s with
  | goto name =>
    rw [offence?]
    cases h : label? name with
    | none => simp [h]
    | some l => simp [h]
  | switch value groups default =>
    cases groups <;> cases default <;> simp [offence?]
  | attempt body handlers cleanup =>
    cases handlers <;> cases cleanup <;> simp [offence?]
  | _ => simp [offence?]

/-- A statement's own offence comes first, then what its scopes fail with. -/
theorem error?_assemble (s : Stmt (Assembled Block)) :
    error? (s.assemble label? close) = (s.offence? label?).or (s.scopes.findSome? error?) := by
  cases s with
  | node n => rfl
  | goto name =>
    rw [assemble, offence?]
    cases label? name <;> rfl
  | conditional links otherwise =>
    refine (error?_andThen fun links => error?_map _ _).trans ?_
    rw [error?_mapM, error?_option_mapM, scopes, List.findSome?_append, List.findSome?_map]
    simp only [error?_map]
    rfl
  | loop l body =>
    rw [scopes, List.findSome?_singleton]
    exact error?_map _ _
  | iteration iterator collection l body =>
    rw [scopes, List.findSome?_singleton]
    exact error?_map _ _
  | switch value groups default =>
    have hswitch (groups : List (Arm (Option (Assembled Block))))
        (default : Option (Label × Assembled Block)) :
        error? (do
          let groups ← groups.mapM fun g =>
            return (⟨g.values, ← g.body.getD (return Block.empty)⟩ : Arm Block)
          let default ← default.mapM fun d => return (d.1, ← d.2)
          return Node.ofSwitch close value groups default) =
        (switch value groups default).scopes.findSome? error? := by
      have hgroup (g : Arm (Option (Assembled Block))) :
          error? (g.body.getD (return Block.empty)) = g.body.bind error? := by
        cases g.body <;> rfl
      have hbodies : (groups.filterMap Arm.body).findSome? error? =
          groups.findSome? fun g => g.body.bind error? := by
        rw [← List.head?_filterMap, List.filterMap_filterMap, List.head?_filterMap]
      refine (error?_andThen fun groups => error?_map _ _).trans ?_
      rw [error?_mapM, error?_option_mapM, scopes, List.findSome?_append, hbodies]
      simp only [error?_map, hgroup]
      cases default <;> rfl
    cases groups with
    | nil =>
      cases default with
      | none => rfl
      | some d =>
        obtain ⟨fall, body⟩ := d
        refine (error?_map body _).trans ?_
        rw [scopes, List.filterMap_nil, List.nil_append]
        exact List.findSome?_singleton.symm
    | cons g groups => exact hswitch (g :: groups) default
  | attempt body handlers cleanup =>
    have hattempt (handlers : List (Handler (Assembled Block)))
        (cleanup : Option (Assembled Block)) :
        error? (do
          let body := close (← body)
          let handlers ← handlers.mapM fun h =>
            return (⟨h.kind, h.binding, close (← h.body)⟩ : Handler Node)
          let cleanup ← cleanup.mapM fun c => return close (← c)
          return Node.attempt body handlers cleanup) =
        (attempt body handlers cleanup).scopes.findSome? error? := by
      refine (error?_andThen fun body => error?_andThen fun handlers => error?_map _ _).trans ?_
      rw [error?_mapM, error?_option_mapM, scopes, List.findSome?_cons, List.findSome?_append,
        List.findSome?_map]
      simp only [error?_map]
      cases error? body <;> rfl
    cases handlers with
    | nil =>
      cases cleanup with
      | none => rfl
      | some c => exact hattempt [] (some c)
    | cons h handlers => exact hattempt (h :: handlers) cleanup
  | resource symbol producer body =>
    rw [scopes, List.findSome?_singleton]
    exact error?_map _ _

end Stmt

/-! ## Scopes -/

namespace Scope

open Assembled

variable {label? : String → Option Label} {close : Block → Node} {root s : Scope}

/-- The offences in a scope, with their sites: those of each statement before those of the next one,
and its own before those inside of it. -/
def offences (label? : String → Option Label) : Scope → List (Site × BuildError) :=
  fold fun frame stmts => stmts.zipIdx.flatMap fun p =>
    ((p.1.offence? label?).toList.map fun e => (⟨frame.id, p.2⟩, e)) ++ p.1.scopes.flatten

theorem offences_eq (s : Scope) :
    s.offences label? = s.stmts.zipIdx.flatMap fun p =>
      ((p.1.offence? label?).toList.map fun e => (⟨s.frame.id, p.2⟩, e)) ++
        p.1.scopes.flatMap (offences label?) := by
  obtain ⟨frame, stmts⟩ := s
  rw [offences, fold_mk, List.zipIdx_map, List.flatMap_map]
  refine List.flatMap_congr fun p _ => ?_
  rw [Prod.map_fst, Prod.map_snd, Stmt.offence?_map, Stmt.scopes_map]
  rfl

/-- The offences without their sites. -/
theorem map_snd_offences (s : Scope) :
    (s.offences label?).map Prod.snd = s.stmts.flatMap fun stmt =>
      (stmt.offence? label?).toList ++ stmt.scopes.flatMap fun c =>
        (c.offences label?).map Prod.snd := by
  rw [offences_eq, List.map_flatMap]
  conv_rhs => rw [← List.zipIdx_map_fst 0 s.stmts, List.flatMap_map]
  refine List.flatMap_congr fun p _ => ?_
  rw [List.map_append, List.map_map, List.map_flatMap]
  exact congrArg (· ++ _) (List.map_id _)

/-- Assembly of a scope fails with the first offence in it. -/
theorem error?_assemble (s : Scope) :
    error? (s.assemble label? close) = ((s.offences label?).map Prod.snd).head? := by
  induction s using induct with
  | step s ih =>
    rw [assemble_eq, error?_map, error?_mapM, List.findSome?_map, map_snd_offences]
    refine findSome?_eq_head? fun stmt hstmt => ?_
    have inside : (stmt.scopes.map (assemble label? close)).findSome? error? =
        (stmt.scopes.flatMap fun c => (c.offences label?).map Prod.snd).head? := by
      rw [List.findSome?_map]
      exact findSome?_eq_head? fun c hc => ih c (mem_children.mpr ⟨stmt, hstmt, hc⟩)
    rw [Function.comp_apply, Stmt.error?_assemble, Stmt.offence?_map, Stmt.scopes_map, inside,
      List.head?_append]
    cases stmt.offence? label? <;> rfl

theorem mem_offences {site : Site} {e : BuildError} :
    (site, e) ∈ root.offences label? ↔
      ∃ outer s, Within root outer s ∧ s.frame.id = site.scope ∧
        ∃ stmt, s.stmts[site.index]? = some stmt ∧ stmt.offence? label? = some e := by
  induction root using induct with
  | step root ih =>
    rw [offences_eq, List.mem_flatMap]
    constructor
    · rintro ⟨⟨stmt, i⟩, hstmt, hmem⟩
      rw [List.mem_zipIdx_iff_getElem?] at hstmt
      rcases List.mem_append.mp hmem with hmem | hmem
      · obtain ⟨e', he, heq⟩ := List.mem_map.mp hmem
        obtain ⟨rfl, rfl⟩ := Prod.mk.inj heq
        exact ⟨[], root, .here, rfl, stmt, hstmt, Option.mem_toList.mp he⟩
      · obtain ⟨c, hc, hmem⟩ := List.mem_flatMap.mp hmem
        have hchild := mem_children.mpr ⟨stmt, List.mem_of_getElem? hstmt, hc⟩
        obtain ⟨inner, s, place, hfound⟩ := (ih c hchild).mp hmem
        exact ⟨_, s, place.of_child hchild, hfound⟩
    · rintro ⟨outer, s, place, hid, stmt, hstmt, he⟩
      rcases place.cases_root with ⟨-, rfl⟩ | ⟨c, hc, inner, -, hin⟩
      · refine ⟨(stmt, site.index), List.mem_zipIdx_iff_getElem?.mpr hstmt, ?_⟩
        refine List.mem_append_left _ (List.mem_map.mpr ⟨e, Option.mem_toList.mpr he, ?_⟩)
        rw [hid]
      · obtain ⟨stmt', hstmt', hc'⟩ := mem_children.mp hc
        obtain ⟨i, hi⟩ := List.mem_iff_getElem?.mp hstmt'
        refine ⟨(stmt', i), List.mem_zipIdx_iff_getElem?.mpr hi, List.mem_append_right _ ?_⟩
        exact List.mem_flatMap.mpr ⟨c, hc', (ih c hc).mpr ⟨inner, s, hin, hid, stmt, hstmt, he⟩⟩

/-- Nothing is missing in the statements of the scope itself: jumps have their labels, switches an
alternative, and guarded regions something that is done about exceptions. -/
structure Complete (label? : String → Option Label) (s : Scope) : Prop where
  goto : ∀ name, Stmt.goto name ∈ s.stmts → ∃ l, label? name = some l
  switch : ∀ value groups default, Stmt.switch value groups default ∈ s.stmts →
    groups ≠ [] ∨ default.isSome = true
  attempt : ∀ body handlers cleanup, Stmt.attempt body handlers cleanup ∈ s.stmts →
    handlers ≠ [] ∨ cleanup.isSome = true

theorem complete_iff :
    s.Complete label? ↔ ∀ stmt ∈ s.stmts, stmt.offence? label? = none := by
  constructor
  · intro h stmt hstmt
    refine Stmt.offence?_eq_none.mpr ⟨fun name e => ?_, fun value groups default e => ?_,
      fun body handlers cleanup e => ?_⟩
    · exact h.goto name (e ▸ hstmt)
    · exact h.switch value groups default (e ▸ hstmt)
    · exact h.attempt body handlers cleanup (e ▸ hstmt)
  · intro h
    constructor
    · exact fun name hmem => (Stmt.offence?_eq_none.mp (h _ hmem)).1 name rfl
    · exact fun value groups default hmem =>
        (Stmt.offence?_eq_none.mp (h _ hmem)).2.1 value groups default rfl
    · exact fun body handlers cleanup hmem =>
        (Stmt.offence?_eq_none.mp (h _ hmem)).2.2 body handlers cleanup rfl

/-- A tree is free of offences if all its scopes are complete. -/
theorem offences_eq_nil_iff :
    root.offences label? = [] ↔ ∀ outer s, Within root outer s → s.Complete label? := by
  rw [List.eq_nil_iff_forall_not_mem]
  constructor
  · intro h outer s place
    refine complete_iff.mpr fun stmt hstmt => Option.eq_none_iff_forall_ne_some.mpr fun e he => ?_
    obtain ⟨i, hi⟩ := List.mem_iff_getElem?.mp hstmt
    exact h (⟨s.frame.id, i⟩, e) (mem_offences.mpr ⟨outer, s, place, rfl, stmt, hi, he⟩)
  · rintro h ⟨site, e⟩ hmem
    obtain ⟨outer, s, place, -, stmt, hstmt, he⟩ := mem_offences.mp hmem
    have hnone := complete_iff.mp (h outer s place) stmt (List.mem_of_getElem? hstmt)
    exact Option.some_ne_none e (he.symm.trans hnone)

end Scope

/-! ## Programs -/

namespace Builder

open Assembled

variable {F : Fragment → Prop} {b b' : Builder} {name : String} {l : Label}

theorem error?_assemble (b : Builder) :
    error? b.assemble = ((b.top.offences b.label?).map Prod.snd).head? := by
  rw [assemble, assembleWith, error?_map, Scope.error?_assemble]

theorem assemble_error_iff {e : BuildError} :
    b.assemble = .error e ↔ ∃ site, (b.top.offences b.label?).head? = some (site, e) := by
  rw [← error?_eq_some, error?_assemble, List.head?_map, Option.map_eq_some_iff]
  constructor
  · rintro ⟨⟨site, _⟩, hhead, rfl⟩
    exact ⟨site, hhead⟩
  · rintro ⟨site, hhead⟩
    exact ⟨(site, e), hhead, rfl⟩

theorem assemble_ok_iff :
    (∃ a, b.assemble = .ok a) ↔ ∀ outer s, b.top.Within outer s → s.Complete b.label? := by
  rw [← error?_eq_none, error?_assemble, List.head?_eq_none_iff, List.map_eq_nil_iff,
    Scope.offences_eq_nil_iff]

theorem Adds.label?_kept {c : Chain} {stmts : List (Stmt Scope)} (h : b.Adds F c stmts b')
    (hl : b.label? name = some l) : b'.label? name = some l := by
  cases h with
  | label => exact List.find?_append.trans (by rw [show b.labels.find? _ = _ from hl]; rfl)
  | _ => exact hl

theorem Grows.label?_kept {c : Chain} {old new : Stmt Scope} (h : b.Grows F c old new b')
    (hl : b.label? name = some l) : b'.label? name = some l := by
  cases h <;> exact hl

/-- A label that was placed keeps its name. -/
theorem Edits.label?_kept (h : b.Edits F b') (hl : b.label? name = some l) :
    b'.label? name = some l := by
  induction h with
  | refl => exact hl
  | edit _ edit ih =>
    cases edit with
    | param => exact ih
    | declare => exact ih
    | add _ adds => exact adds.label?_kept ih
    | grow _ _ grows => exact grows.label?_kept ih

end Builder

namespace Build

variable {b b' : Builder} {id : ScopeId} {name : String}

/-- A label that is placed is registered under its name. -/
theorem label_registers (h : statement id (.label name) b = .ok () b') :
    ∃ l, b'.label? name = some l := by
  obtain ⟨c, hc, h⟩ := (chain_reads id).andThen_ok h
  rw [Outcome.get_andThen] at h
  cases hl : b.label? name with
  | some l => simp [hl] at h
  | none =>
    simp only [hl, Option.isSome_none, Bool.false_eq_true, if_false, Outcome.andThen_ok,
      makeLabelId_ok, Outcome.modify_ok, pushNode_ok] at h
    obtain ⟨_, _, ⟨rfl, rfl⟩, _, _, rfl, rfl⟩ := h
    refine ⟨Label.named b.labelCount name, List.find?_append.trans ?_⟩
    rw [show b.labels.find? _ = _ from hl]
    simp [Label.named]

end Build

namespace Builder

variable {b : Builder}

/-- A builder is assembled exactly if in each scope that was ever made every jump by name has its
label, every switch a group or a default, and every guarded region a handler or a cleanup. Otherwise
the assembly fails with the first offence in the order of assembly, and the offences are those of the
statements that stand in the scopes. What an earlier operation put into a scope is one of these
statements, whether its handle was ended or not, and labels that were placed are known. -/
theorem Reachable.assembles_iff (h : b.Reachable) :
    ((∃ a, b.assemble = .ok a) ↔
      ∀ id < b.scopeCount, ∃ s, b.top.find? id = some s ∧ s.Complete b.label?) ∧
    (∀ e, b.assemble = .error e ↔
      ∃ site, (b.top.offences b.label?).head? = some (site, e)) ∧
    (∀ site e, (site, e) ∈ b.top.offences b.label? ↔
      ∃ stmt, b.at? site = some stmt ∧ stmt.offence? b.label? = some e) ∧
    ∀ b₀ b₁ : Builder, b₀.Reachable → b₁.Later b →
      (∀ id name, Build.statement id (.goto name) b₀ = .ok () b₁ →
        ∃ i, b.at? ⟨id, i⟩ = some (.goto name)) ∧
      (∀ id o handle, Build.opening id o b₀ = .ok handle b₁ →
        ∃ i stmt, b.at? ⟨id, i⟩ = some stmt ∧ stmt.kind = o.kind ∧
          ∀ site ∈ handle.site?, site = ⟨id, i⟩) ∧
      ∀ id name, Build.statement id (.label name) b₀ = .ok () b₁ → ∃ l, b.label? name = some l := by
  have hnumbered := h.built.numbered
  refine ⟨?_, fun e => assemble_error_iff, fun site e => ?_, fun b₀ b₁ h₀ later => ⟨?_, ?_, ?_⟩⟩
  · rw [assemble_ok_iff]
    constructor
    · intro hall id hid
      obtain ⟨c, hc⟩ := Scope.chain?_isSome (h.built.housed id hid)
      obtain ⟨outer, s, place, rfl, -⟩ := Scope.exists_of_chain? hc
      exact ⟨s, place.find?_eq hnumbered.distinct, hall outer s place⟩
    · intro hall outer s place
      obtain ⟨t, ht, hcomplete⟩ := hall s.frame.id (hnumbered.id_lt _ place.id_mem)
      obtain rfl := Option.some.inj (ht.symm.trans (place.find?_eq hnumbered.distinct))
      exact hcomplete
  · rw [Scope.mem_offences]
    constructor
    · rintro ⟨outer, s, place, hid, stmt, hstmt, he⟩
      have hat := at?_of_within hnumbered.distinct place site.index
      rw [hid] at hat
      exact ⟨stmt, hat.trans hstmt, he⟩
    · rintro ⟨stmt, hat, he⟩
      obtain ⟨outer, s, place, hid, hstmt⟩ := exists_of_at? hat
      exact ⟨outer, s, place, hid, stmt, hstmt, he⟩
  · intro id name hgoto
    have hb₁ := h₀.built.edits ((Build.goto_keeps id name).done h₀.built hgoto)
    obtain ⟨i, -, hat⟩ := Build.goto_at? h₀.built hgoto
    obtain ⟨stmt, hat, hkind⟩ := later.at?_kept hb₁ hat
    cases stmt <;> cases hkind
    exact ⟨i, hat⟩
  · intro id o handle hopening
    have hb₁ := h₀.built.edits
      ((Build.opening_keeps id fun _ _ => trivial).done h₀.built hopening)
    obtain ⟨i, stmt, -, hat, hkind, hsite⟩ := Build.opening_at? h₀.built hopening
    obtain ⟨stmt', hat, hkind'⟩ := later.at?_kept hb₁ hat
    exact ⟨i, stmt', hat, hkind'.trans hkind, hsite⟩
  · intro id name hlabel
    have hb₁ := h₀.built.edits ((Build.label_keeps id name).done h₀.built hlabel)
    obtain ⟨l, hl⟩ := Build.label_registers hlabel
    exact ⟨l, (later.edits hb₁).label?_kept hl⟩

/-- A switch without alternatives inside of a guarded region, which was left at once and has no
handler: the region is the first offence, since it is found before what is inside of it. -/
theorem assembles_iff_in_region :
    ∃ b : Builder, b.Reachable ∧ b.assemble = .error .emptyTry ∧
      (⟨1, 0⟩, .emptyBranch) ∈ b.top.offences b.label? ∧
      ¬∀ id < b.scopeCount, ∃ s, b.top.find? id = some s ∧ s.Complete b.label? := by
  obtain ⟨b, hb⟩ : ∃ b, Builder.create ⟨"f", false⟩ [] .void = .ok b := ⟨_, rfl⟩
  have htry := (Reachable.create hb).opening 0 .guarded
  have hswitch := htry.opening 1 (.switchOn ⟨[], .const (.int 0)⟩)
  obtain ⟨done, failed, offends, -⟩ := hswitch.assembles_iff
  cases hb
  have herror := (failed .emptyTry).mpr ⟨⟨0, 0⟩, rfl⟩
  refine ⟨_, hswitch, herror, (offends _ _).mpr ⟨_, rfl, rfl⟩, fun hall => ?_⟩
  obtain ⟨a, ha⟩ := done.mpr hall
  cases herror.symm.trans ha

end Builder

end StructuredFlow
