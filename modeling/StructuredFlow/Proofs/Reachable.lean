import StructuredFlow.Proofs.ConstructOperations

/-
  The builders that programs are built with. `Builder.Reachable` allows any operation at any time,
  through any scope and any handle, whether it is done or refused; a session does less
  (`Session.reachable_command`). Every such builder is built by edits (`Builder.Reachable.built`),
  and what is known of the fragments of the operations is known in the edits
  (`Builder.ReachableBy.built`).
-/

namespace StructuredFlow

/-- The fragments that a construct is opened with. -/
def Opening.fragments : Opening → List Fragment
  | .ifTest test | .whileTest test | .doWhile test => [test]
  | .forEach _ _ collection => [collection]
  | .switchOn value => [value]
  | .using _ _ producer => [producer]
  | .guarded => []

/-- The fragments that a step on a construct is taken with. -/
def Step.fragments : Step → List Fragment
  | .otherwiseIf test => [test]
  | .case value => [value]
  | .finish | .otherwise | .handler _ _ | .cleanup | .caseBody | .default => []

/-- The builder after an operation, whether it is done or refused. -/
def Build.after {α : Type} (x : Build α) (b : Builder) : Builder :=
  match x b with
  | .ok _ b' => b'
  | .error _ b' => b'

namespace Builder

/-- A builder that operations lead to from a new one. -/
inductive Reachable : Builder → Prop
  | create {options params returnType b} (created : create options params returnType = .ok b) :
      Reachable b
  | statement {b} (reachable : Reachable b) (id : ScopeId) (s : Statement) :
      Reachable ((Build.statement id s).after b)
  | opening {b} (reachable : Reachable b) (id : ScopeId) (o : Opening) :
      Reachable ((Build.opening id o).after b)
  | step {b} (reachable : Reachable b) {h : Handle} {s : Step} {x : Build (Option Handle)}
      (offered : Build.step? h s = some x) : Reachable (x.after b)

/-- A builder that operations lead to from a new one, where `F` holds of all fragments that they are
given. -/
inductive ReachableBy (F : Fragment → Prop) : Builder → Prop
  | create {options params returnType b} (created : create options params returnType = .ok b) :
      ReachableBy F b
  | statement {b} (reachable : ReachableBy F b) (id : ScopeId) {s : Statement}
      (known : ∀ f ∈ s.fragments, F f) : ReachableBy F ((Build.statement id s).after b)
  | opening {b} (reachable : ReachableBy F b) (id : ScopeId) {o : Opening}
      (known : ∀ f ∈ o.fragments, F f) : ReachableBy F ((Build.opening id o).after b)
  | step {b} (reachable : ReachableBy F b) {h : Handle} {s : Step} {x : Build (Option Handle)}
      (offered : Build.step? h s = some x) (known : ∀ f ∈ s.fragments, F f) :
      ReachableBy F (x.after b)

/-- A builder that operations lead to from another one. -/
inductive Later (b : Builder) : Builder → Prop
  | refl : Later b b
  | statement {b'} (later : Later b b') (id : ScopeId) (s : Statement) :
      Later b ((Build.statement id s).after b')
  | opening {b'} (later : Later b b') (id : ScopeId) (o : Opening) :
      Later b ((Build.opening id o).after b')
  | step {b'} (later : Later b b') {h : Handle} {s : Step} {x : Build (Option Handle)}
      (offered : Build.step? h s = some x) : Later b (x.after b')

end Builder

namespace Build

open Outcome

variable {F : Fragment → Prop}

theorem Keeps.after {α : Type} {x : Build α} (hx : Keeps F x) {b : Builder} (hb : b.Built F) :
    b.Edits F (x.after b) := by
  rw [Build.after]
  cases h : x b with
  | ok r b' => exact hx.done hb h
  | error e b' => exact (hx.refused h).symm ▸ .refl

theorem opening_keeps (id : ScopeId) {o : Opening} (ho : ∀ f ∈ o.fragments, F f) :
    Keeps F (opening id o) := by
  cases o with
  | ifTest test => exact (openIf_keeps id (ho test (List.mem_singleton_self _))).map _
  | whileTest test => exact (openWhile_keeps id (ho test (List.mem_singleton_self _))).map _
  | doWhile test => exact (openDoWhile_keeps id (ho test (List.mem_singleton_self _))).map _
  | forEach name ty collection =>
    exact (openForEach_keeps id name ty (ho collection (List.mem_singleton_self _))).map _
  | switchOn value => exact (openSwitch_keeps id (ho value (List.mem_singleton_self _))).map _
  | guarded => exact (openTry_keeps id).map _
  | _ => exact (openUsing_keeps id _ _ (ho _ (List.mem_singleton_self _))).map _

/-- Whatever a handle offers keeps. -/
theorem step?_keeps {h : Handle} {s : Step} {x : Build (Option Handle)}
    (offered : step? h s = some x) (hs : ∀ f ∈ s.fragments, F f) : Keeps F x := by
  cases h <;> cases s <;> cases offered
  · exact (Reads.pure _).keeps
  · exact (openElse_keeps _).map _
  · exact (openElseIf_keeps _ (hs _ (List.mem_singleton_self _))).map _
  · exact (Reads.pure _).keeps
  · exact (Reads.pure _).keeps
  · exact (openGroup_keeps _ (hs _ (List.mem_singleton_self _))).map _
  · exact (openDefault_keeps _).map _
  · exact (Reads.pure _).keeps
  · exact (widenGroup_keeps _ _ (hs _ (List.mem_singleton_self _))).map _
  · exact (openGroupBody_keeps _ _).map _
  · exact (Reads.pure _).keeps
  · exact ((endTry_reads _).andThen fun _ => .pure _).keeps
  · exact (openCatch_keeps _ _ _).map _
  · exact (openFinally_keeps _).map _
  · exact (Reads.pure _).keeps

end Build

namespace Builder

open Outcome

variable {F : Fragment → Prop}

theorem bindParams_built {ps : List Placeholder} {b b' : Builder} {u : Unit} (hb : b.Built F)
    (h : bindParams ps b = .ok u b') : b'.Built F := by
  induction ps generalizing b with
  | nil => exact (pure_ok.mp h).2 ▸ hb
  | cons p ps ih =>
    simp only [bindParams, andThen_ok, Build.bind_ok, modify_ok] at h
    obtain ⟨_, _, ⟨c, hc, new, newInside, rfl, rfl⟩, _, _, rfl, h⟩ := h
    obtain ⟨outer, s, place, hid, rfl⟩ := Scope.exists_of_chain? hc
    obtain ⟨rfl, rfl⟩ := place.unique hb.numbered.distinct .here (hid.trans hb.top_id.symm)
    rw [← hid, place.find?_eq hb.numbered.distinct] at newInside
    have edited := hb.edit (@Edit.param F b p.name p.ty new newInside)
    rw [hb.top_id] at edited
    exact ih edited h

theorem ReachableBy.built {b : Builder} (h : b.ReachableBy F) : b.Built F := by
  induction h with
  | @create options params returnType b created =>
    rw [Builder.create] at created
    cases hp : bindParams params (Builder.empty options returnType) with
    | ok u b' =>
      rw [hp] at created
      cases created
      exact bindParams_built (.empty options returnType) hp
    | error e b' =>
      rw [hp] at created
      cases created
  | statement _ id known ih => exact ih.edits ((Build.statement_keeps id known).after ih)
  | opening _ id known ih => exact ih.edits ((Build.opening_keeps id known).after ih)
  | step _ offered known ih => exact ih.edits ((Build.step?_keeps offered known).after ih)

/-- What is known of the fragments may be forgotten. -/
theorem ReachableBy.reachable {b : Builder} (h : b.ReachableBy F) : b.Reachable := by
  induction h with
  | create created => exact .create created
  | statement _ id _ ih => exact ih.statement id _
  | opening _ id _ ih => exact ih.opening id _
  | step _ offered _ ih => exact ih.step offered

theorem Reachable.reachableBy {b : Builder} (h : b.Reachable) : b.ReachableBy fun _ => True := by
  induction h with
  | create created => exact .create created
  | statement _ id s ih => exact ih.statement id fun _ _ => trivial
  | opening _ id o ih => exact ih.opening id fun _ _ => trivial
  | step _ offered ih => exact ih.step offered fun _ _ => trivial

theorem Reachable.built {b : Builder} (h : b.Reachable) : b.Built fun _ => True :=
  h.reachableBy.built

/-- Between a builder and a later one there are edits. -/
theorem Later.edits {b b' : Builder} (h : b.Later b') (hb : b.Built fun _ => True) :
    b.Edits (fun _ => True) b' := by
  induction h with
  | refl => exact .refl
  | statement _ id s ih =>
    exact ih.trans ((Build.statement_keeps id fun _ _ => trivial).after (hb.edits ih))
  | opening _ id o ih =>
    exact ih.trans ((Build.opening_keeps id fun _ _ => trivial).after (hb.edits ih))
  | step _ offered ih =>
    exact ih.trans ((Build.step?_keeps offered fun _ _ => trivial).after (hb.edits ih))

end Builder

namespace Session

theorem builder_run {α : Type} (s : Session) (x : Build α) (onDone : α → List Handle)
    (refused : List Handle) : (s.run x onDone refused).2.builder = x.after s.builder := by
  rw [run, Build.after]
  cases x s.builder <;> rfl

theorem command_step (b : Builder) (h : Handle) (rest : List Handle) (step : Step) :
    (⟨b, h :: rest⟩ : Session).command (.step step) =
      (Build.step? h step).elim (.notOffered, ⟨b, h :: rest⟩) fun x =>
        run ⟨b, h :: rest⟩ x (fun next => next.toList ++ rest) rest := by
  unfold command
  dsimp only
  cases Build.step? h step <;> rfl

/-- A command of a session is at most one operation on its builder. -/
theorem reachable_command {s : Session} (h : s.builder.Reachable) (c : Command) :
    (s.command c).2.builder.Reachable := by
  cases c with
  | top => exact h
  | statement stmt =>
    rw [command]
    cases s.scope? with
    | none => exact h
    | some id =>
      show (s.run _ _ _).2.builder.Reachable
      rw [builder_run]
      exact h.statement id stmt
  | opening o =>
    rw [command]
    cases s.scope? with
    | none => exact h
    | some id =>
      show (s.run _ _ _).2.builder.Reachable
      rw [builder_run]
      exact h.opening id o
  | step step =>
    obtain ⟨builder, handles⟩ := s
    cases handles with
    | nil => cases step <;> exact h
    | cons handle rest =>
      rw [command_step]
      cases offered : Build.step? handle step with
      | none => exact h
      | some x =>
        show (run _ _ _ _).2.builder.Reachable
        rw [builder_run]
        exact h.step offered

end Session

end StructuredFlow
