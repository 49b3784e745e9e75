import StructuredFlow.Proofs.FragmentsWithoutCaptures

/-
  Which fragments are accepted in a scope, and what the others are refused for. A fragment is
  bindable if the scope has a symbol of the right type for each listed placeholder, if the
  placeholders of the body are listed too, with these types, and if its variables are visible or may
  be captured (`Fragment.Bindable`). Exactly these are accepted; of the others, each is refused for
  the first of its mentions that offends (`Fragment.accepted_iff_bindable`). A fragment that lists
  what it uses has the first placeholder of each name in its list, so none is refused for not being
  listed.
-/

namespace StructuredFlow

variable {scope : Fragment.Context}

namespace Fragment

variable {f : Fragment}

/-- The fragment can be bound in the scope: its placeholders are, and its variables are visible or
may be captured. -/
structure Bindable (scope : Fragment.Context) (f : Fragment) : Prop extends f.Bound scope where
  vars : ∀ s ∈ f.body.vars, scope.isVisible s = true ∨ scope.capturesAllowed = true

/-- A fragment is bindable if none of its mentions offends. -/
theorem bindable_iff_sound :
    f.Bindable scope ↔ ∀ m ∈ f.mentions, m.offence? scope (scope.means f.names) = none := by
  constructor
  · intro h m hm
    rcases List.mem_append.mp hm with hm | hm
    · obtain ⟨p, hp, rfl⟩ := List.mem_map.mp hm
      exact Placeholder.offence?_eq_none.mpr (h.found p (List.mem_append_left _ hp))
    · rcases Expr.mem_mentions_iff.mp hm with ⟨p, hp, rfl⟩ | ⟨s, hs, rfl⟩
      · obtain ⟨s, hs, hty⟩ := h.found p (List.mem_append_right _ hp)
        have hname := mem_names_iff.mpr (h.listed p hp)
        exact Placeholder.offence?_eq_none.mpr ⟨s, Context.means_eq_some.mpr ⟨hname, hs⟩, hty⟩
      · exact Symbol.offence?_eq_none.mpr (h.vars s hs)
  · intro h
    have hbody : ∀ m ∈ f.body.mentions, m.offence? scope (scope.means f.names) = none :=
      fun m hm => h m (List.mem_append_right _ hm)
    have hfound : ∀ p ∈ f.body.placeholders, p.name ∈ f.names ∧
        ∃ s, scope.resolve p.name = some s ∧ s.ty = p.ty := by
      intro p hp
      obtain ⟨s, hs, hty⟩ := Expr.found_of_sound hbody hp
      obtain ⟨hname, hs⟩ := Context.means_eq_some.mp hs
      exact ⟨hname, s, hs, hty⟩
    refine ⟨⟨fun p hp => mem_names_iff.mp (hfound p hp).1, fun p hp => ?_⟩,
      fun s hs => Expr.admitted_of_sound hbody hs⟩
    rcases List.mem_append.mp hp with hp | hp
    · have hm : .listed p ∈ f.mentions := List.mem_append_left _ (List.mem_map_of_mem hp)
      exact Placeholder.offence?_eq_none.mp (h _ hm)
    · exact (hfound p hp).2

theorem resolveIn_ok_iff {e : Expr} :
    f.resolveIn scope = .ok e ↔
      f.Bindable scope ∧ e = f.body.fill (scope.means f.names) := by
  rw [resolveIn_eq, bindable_iff_sound, ← List.findSome?_eq_none_iff]
  cases f.mentions.findSome? (Mention.offence? scope (scope.means f.names)) with
  | none => simp [verdict, eq_comm]
  | some cause => simp [verdict]

theorem resolveIn_error_iff {cause : BuildError} :
    f.resolveIn scope = .error cause ↔
      f.mentions.findSome? (Mention.offence? scope (scope.means f.names)) = some cause := by
  rw [resolveIn_eq]
  cases f.mentions.findSome? (Mention.offence? scope (scope.means f.names)) <;> simp [verdict]

/-- A fragment is refused for an unbound placeholder if the name stands for nothing in the scope, or if
a placeholder of the body is not listed. -/
theorem unbound_of_error {name : String}
    (h : f.resolveIn scope = .error (.unboundPlaceholder name)) :
    scope.resolve name = none ∨ name ∉ f.names ∧ ∃ p ∈ f.body.placeholders, p.name = name := by
  obtain ⟨m, hm, hoffence⟩ := List.exists_of_findSome?_eq_some (resolveIn_error_iff.mp h)
  rcases List.mem_append.mp hm with hm | hm
  · obtain ⟨p, -, rfl⟩ := List.mem_map.mp hm
    obtain ⟨rfl, hnone⟩ := Placeholder.offence?_eq_unbound.mp hoffence
    exact .inl hnone
  · rcases Expr.mem_mentions_iff.mp hm with ⟨p, hp, rfl⟩ | ⟨s, -, rfl⟩
    · obtain ⟨rfl, hnone⟩ := Placeholder.offence?_eq_unbound.mp hoffence
      by_cases hname : p.name ∈ f.names
      · exact .inl (by rwa [Context.means, if_pos hname] at hnone)
      · exact .inr ⟨hname, p, hp, rfl⟩
    · exact absurd hoffence (Symbol.offence?_ne_unbound s name)

end Fragment

/-! ## Inferred lists -/

namespace Placeholder

theorem firstByName_filter (name : String) (ps : List Placeholder) :
    firstByName (ps.filter (·.name != name)) = (firstByName ps).filter (·.name != name) := by
  induction ps with
  | nil => rfl
  | cons p ps ih =>
    by_cases hp : p.name = name
    · simp only [List.filter_cons, firstByName, hp, ih, bne_self_eq_false, Bool.false_eq_true,
        if_false, List.filter_filter, Bool.and_self]
    · have hne : (p.name != name) = true := bne_iff_ne.mpr hp
      simp only [List.filter_cons, firstByName, hne, ih, if_true, List.filter_filter, Bool.and_comm]

/-- The first placeholder of each name is what is left when repeated names are erased. -/
theorem firstByName_eq (ps : List Placeholder) :
    firstByName ps = ps.eraseDupsBy fun p q => p.name == q.name := by
  induction h : ps.length using Nat.strongRecOn generalizing ps with
  | ind n ih =>
    cases ps with
    | nil => rfl
    | cons p ps =>
      have hshorter : (ps.filter (·.name != p.name)).length < n := by
        rw [← h]
        exact Nat.lt_succ_of_le (List.length_filter_le ..)
      rw [List.eraseDupsBy_cons, firstByName, ← firstByName_filter, ih _ hshorter _ rfl]
      congr 2
      exact List.filter_congr fun q _ => by cases h : q.name == p.name <;> simp_all

end Placeholder

/-- A fragment that lists what it uses is refused as unbound for names that stand for nothing. -/
theorem Fragment.resolve_of_infer_unbound {body : Expr} {name : String}
    (h : (infer body).resolveIn scope = .error (.unboundPlaceholder name)) :
    scope.resolve name = none := by
  refine (unbound_of_error h).resolve_right ?_
  rintro ⟨hname, p, hp, rfl⟩
  exact hname (mem_names_iff.mpr (Placeholder.exists_firstByName hp))

/-- Exactly the bindable fragments are accepted in a scope, and the others are refused for the first
of their mentions that offends, the listed placeholders first and then the body from left to right. A
fragment that lists what it uses lists the first placeholder of each name; a placeholder of it that
is refused as unbound has a name that stands for nothing in the scope. -/
theorem Fragment.accepted_iff_bindable (scope : Fragment.Context) (f : Fragment) :
    ((∃ e, f.resolveIn scope = .ok e) ↔ f.Bindable scope) ∧
    (∀ cause, f.resolveIn scope = .error cause ↔
      f.mentions.findSome? (Mention.offence? scope (scope.means f.names)) = some cause) ∧
    ∀ body : Expr,
      (infer body).params = body.placeholders.eraseDupsBy (fun p q => p.name == q.name) ∧
      (∀ p ∈ body.placeholders, p.name ∈ (infer body).names) ∧
      ∀ name, (infer body).resolveIn scope = .error (.unboundPlaceholder name) →
        scope.resolve name = none := by
  refine ⟨⟨?_, ?_⟩, fun cause => resolveIn_error_iff,
    fun body => ⟨?_, ?_, fun name => resolve_of_infer_unbound⟩⟩
  · rintro ⟨e, he⟩
    exact (resolveIn_ok_iff.mp he).1
  · intro h
    exact ⟨_, resolveIn_ok_iff.mpr ⟨h, rfl⟩⟩
  · exact Placeholder.firstByName_eq body.placeholders
  · intro p hp
    exact mem_names_iff.mpr (Placeholder.exists_firstByName hp)

end StructuredFlow
