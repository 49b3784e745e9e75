import StructuredFlow.Proofs.Reachable

/-
  Operations are done as a whole or not at all. Every check of an operation stands before the first
  change, so what is refused leaves the builder as it was, with its scopes, labels and numbers
  (`Builder.refused_unchanged`). The one check behind a change is that of the binding in a scope
  that has just been made; there the name has been found to be free before (`Build.Succeeds`).
-/

namespace StructuredFlow

namespace Build

open Outcome

variable {α : Type} {b : Builder}

/-- If the operation is refused, the builder is as it was before. -/
def Atomic (x : Build α) (b : Builder) : Prop :=
  ∀ e b', x b = .error e b' → b' = b

/-- The operation is not refused. -/
def Succeeds (x : Build α) (b : Builder) : Prop :=
  ∃ r b', x b = .ok r b'

theorem Keeps.atomic {x : Build α} (hx : Keeps (fun _ => True) x) (b : Builder) : Atomic x b :=
  fun _ _ h => hx.refused h

theorem succeeds_of_not_refused {x : Build α} (h : ∀ e b', x b ≠ .error e b') : Succeeds x b := by
  cases hx : x b with
  | ok r b' => exact ⟨r, b', hx⟩
  | error e b' => exact absurd hx (h e b')

end Build

namespace Session

/-- A command that is refused leaves the builder as it was, also where it costs a handle. -/
theorem command_refused {s s' : Session} {c : Command} {e : BuildError}
    (h : s.command c = (.refused e, s')) : s'.builder = s.builder := by
  have refused : ∀ {α : Type} {x : Build α} {onDone : α → List Handle} {handles : List Handle},
      Build.Keeps (fun _ => True) x → s.run x onDone handles = (.refused e, s') →
        s'.builder = s.builder := by
    intro α x onDone handles hx hrun
    rw [run] at hrun
    cases hxs : x s.builder with
    | ok r b' =>
      rw [hxs] at hrun
      cases hrun
    | error e' b' =>
      rw [hxs] at hrun
      cases hrun
      exact hx.refused hxs
  cases c with
  | top => cases h
  | statement stmt =>
    rw [command] at h
    split at h
    · exact refused (Build.statement_keeps _ fun _ _ => trivial) h
    · cases h
  | opening o =>
    rw [command] at h
    split at h
    · exact refused (Build.opening_keeps _ fun _ _ => trivial) h
    · cases h
  | step step =>
    obtain ⟨builder, handles⟩ := s
    cases handles with
    | nil => cases step <;> cases h
    | cons handle rest =>
      rw [command_step] at h
      cases offered : Build.step? handle step with
      | none =>
        rw [offered] at h
        cases h
      | some x =>
        rw [offered] at h
        exact refused (Build.step?_keeps offered fun _ _ => trivial) h

end Session

namespace Builder

open Build

/-- Whatever is refused leaves the builder as it was: a statement, the opening of a construct, or a
step on a handle. The parts of iterations, handlers and resources that bind a name in a new scope
are never refused behind the check that the name is free. -/
theorem refused_unchanged (b : Builder) :
    (∀ id s, Atomic (statement id s) b) ∧
      (∀ id o, Atomic (opening id o) b) ∧
      (∀ h s x, step? h s = some x → Atomic x b) ∧
      (∀ id name cause, requireFree id name cause b = .ok () b →
        (∀ ty iteratorType, Succeeds (makeIteration id name ty iteratorType) b) ∧
          (∀ kind, Succeeds (makeHandler id kind (some name)) b) ∧
          ∀ ty, Succeeds (makeResource id name ty) b) ∧
      ∀ id kind, Succeeds (makeHandler id kind none) b := by
  refine ⟨fun id s => (statement_keeps id fun _ _ => trivial).atomic b,
    fun id o => (opening_keeps id fun _ _ => trivial).atomic b,
    fun h s x offered => (step?_keeps offered fun _ _ => trivial).atomic b,
    fun id name cause hfree => ?_, fun id kind => ?_⟩
  · obtain ⟨c, hc, new, -⟩ := requireFree_ok.mp hfree
    refine ⟨fun ty iteratorType => ?_, fun kind => ?_, fun ty => ?_⟩
    · exact succeeds_of_not_refused fun e b' => makeIteration_refused hc new
    · refine succeeds_of_not_refused fun e b' => makeHandler_refused fun n hn => ?_
      obtain rfl := Option.some.inj (Option.mem_def.mp hn)
      exact ⟨c, hc, new⟩
    · exact succeeds_of_not_refused fun e b' => makeResource_refused hc new
  · exact succeeds_of_not_refused fun e b' => makeHandler_refused fun n hn => nomatch hn

/-- A name that is taken is refused for a resource; one that is free is bound. -/
theorem refused_unchanged_using :
    ∃ (b : Builder) (e : BuildError) (b' : Builder), b.Reachable ∧
      opening 0 (.using "x" .any ⟨[], .null .any⟩) b = .error e b' ∧ b' = b ∧
      requireFree 0 "y" (.nameConflict "y") b = .ok () b ∧
      Succeeds (makeResource 0 "y" .any) b := by
  obtain ⟨b, hb⟩ : ∃ b, Builder.create ⟨"f", false⟩ [⟨"x", .int⟩] .int = .ok b := ⟨_, rfl⟩
  have hreachable := Reachable.create hb
  obtain ⟨e, b', hrefused⟩ :
      ∃ e b', opening 0 (.using "x" .any ⟨[], .null .any⟩) b = .error e b' := by
    cases hb
    exact ⟨_, _, rfl⟩
  have hfree : requireFree 0 "y" (.nameConflict "y") b = .ok () b := by
    cases hb
    rfl
  obtain ⟨-, hopening, -, hbinding, -⟩ := refused_unchanged b
  exact ⟨b, e, b', hreachable, hrefused, hopening _ _ e b' hrefused, hfree,
    (hbinding _ _ _ hfree).2.2 .any⟩

end Builder

end StructuredFlow
