import Mathlib.Data.List.TakeWhile
import StructuredFlow.Proofs.BindableFragments

/-
  Fragments that are resolved one after the other. What a fragment binds stays bound, also when the
  fragment is refused later on (`Fragment.bound`); so the next one gives what it would give on its own
  if it listed all of this too. A fragment that lists what it uses gives what it gives on its own. One
  that does not may be accepted where it would be refused on its own, and exactly then it is not
  treated on its own: if it would be refused for a name that one before it has bound
  (`Fragment.resolved_in_turn`, `Fragment.unlisted_accepted`).
-/

namespace StructuredFlow

variable {scope : Fragment.Context} {r : Resolution} {known names : List String}

namespace Fragment

variable {f : Fragment}

/-- The placeholders that a fragment binds: the listed ones before the first that offends. -/
def binds (scope : Fragment.Context) (f : Fragment) : List Placeholder :=
  f.params.takeWhile fun p => (p.offence? (scope.resolve p.name)).isNone

/-- The placeholders that are bound by fragments, one after the other. -/
def bound (scope : Fragment.Context) (fs : List Fragment) : List Placeholder :=
  fs.flatMap (binds scope)

theorem offence?_of_mem_bound {fs : List Fragment} {p : Placeholder} (h : p ∈ bound scope fs) :
    p.offence? (scope.resolve p.name) = none := by
  obtain ⟨f, -, hp⟩ := List.mem_flatMap.mp h
  have hsound := List.mem_takeWhile_imp hp
  exact Option.isNone_iff_eq_none.mp hsound

/-- The names that are bound on the way to the first offence are those of the listed placeholders
before it. -/
theorem filterMap_reached (ps : List Placeholder) {meaning : String → Option Symbol}
    {ms : List Mention} (hms : ∀ m ∈ ms, m.name? = none) :
    (Mention.reached scope meaning (ps.map .listed ++ ms)).filterMap Mention.name? =
      (ps.takeWhile fun p => (p.offence? (scope.resolve p.name)).isNone).map (·.name) := by
  induction ps with
  | nil =>
    refine List.filterMap_eq_nil_iff.mpr fun m hm => hms m ?_
    exact (List.takeWhile_sublist _).subset hm
  | cons p ps ih =>
    rw [List.map_cons, List.cons_append, Mention.reached, List.takeWhile_cons, List.takeWhile_cons,
      Mention.offence?]
    cases p.offence? (scope.resolve p.name) with
    | none => exact congrArg (p.name :: ·) ih
    | some cause => rfl

/-- After a fragment, what it binds is known too. -/
theorem symbol?_after (f : Fragment) (hr : r.symbol? = scope.means known) :
    (r.after scope f).symbol? = scope.means (known ++ (f.binds scope).map (·.name)) := by
  rw [f.after_eq hr, Mention.means_foldl_note hr fun m hm => Mention.offence?_of_mem_reached hm,
    mentions, filterMap_reached f.params f.body.name?_of_mem_mentions]
  rfl

theorem symbol?_foldl_after (fs : List Fragment) (hr : r.symbol? = scope.means known) :
    (fs.foldl (Resolution.after scope) r).symbol? =
      scope.means (known ++ (bound scope fs).map (·.name)) := by
  induction fs generalizing r known with
  | nil => rw [List.foldl_nil, hr, bound, List.flatMap_nil, List.map_nil, List.append_nil]
  | cons f fs ih =>
    rw [List.foldl_cons, ih (f.symbol?_after hr), bound, bound, List.flatMap_cons, List.map_append,
      List.append_assoc]

theorem outcome_foldl_after (f : Fragment) (fs : List Fragment) :
    f.outcome scope (fs.foldl (Resolution.after scope) .empty) =
      verdict (f.mentions.findSome?
        (Mention.offence? scope (scope.means ((bound scope fs).map (·.name) ++ f.names))))
        (f.body.fill (scope.means ((bound scope fs).map (·.name) ++ f.names))) :=
  f.outcome_eq (symbol?_foldl_after fs (Resolution.symbol?_empty scope))

end Fragment

/-- More known names change nothing for a mention, unless it is a placeholder that is unbound without
them. -/
theorem Mention.offence?_append {m : Mention}
    (h : ∀ name ∈ known, m.offence? scope (scope.means names) ≠ some (.unboundPlaceholder name)) :
    m.offence? scope (scope.means (known ++ names)) = m.offence? scope (scope.means names) := by
  cases m with
  | listed p => rfl
  | var s => rfl
  | param p =>
    rw [offence?, offence?]
    by_cases hname : p.name ∈ names
    · simp [Fragment.Context.means, hname]
    · have hnone : scope.means names p.name = none := if_neg hname
      by_cases hknown : p.name ∈ known
      · exact absurd (Placeholder.offence?_eq_unbound.mpr ⟨rfl, hnone⟩) (h p.name hknown)
      · simp [Fragment.Context.means, hname, hknown]

namespace Fragment

variable {f : Fragment} {fs : List Fragment}

/-- What a fragment gives after others it gives on its own if it lists what they have bound. -/
theorem outcome_eq_resolveIn_bound (f : Fragment) (fs : List Fragment) :
    f.outcome scope (fs.foldl (Resolution.after scope) .empty) =
      resolveIn scope ⟨bound scope fs ++ f.params, f.body⟩ := by
  have hbound : ((bound scope fs).map Mention.listed).findSome? (Mention.offence? scope
      (scope.means ((bound scope fs).map (·.name) ++ f.names))) = none := by
    refine List.findSome?_eq_none_iff.mpr fun m hm => ?_
    obtain ⟨p, hp, rfl⟩ := List.mem_map.mp hm
    exact offence?_of_mem_bound hp
  have hnames : names ⟨bound scope fs ++ f.params, f.body⟩ =
      (bound scope fs).map (·.name) ++ f.names := List.map_append
  have hmentions : mentions ⟨bound scope fs ++ f.params, f.body⟩ =
      (bound scope fs).map .listed ++ f.mentions := by
    simp only [mentions, List.map_append, List.append_assoc]
  rw [outcome_foldl_after, resolveIn_eq, hnames, hmentions, List.findSome?_append, hbound,
    Option.none_or]

/-- A fragment that is not refused on its own for a name that is bound by others gives after them what
it gives on its own. -/
theorem outcome_eq_resolveIn
    (h : ∀ p ∈ bound scope fs, f.resolveIn scope ≠ .error (.unboundPlaceholder p.name)) :
    f.outcome scope (fs.foldl (Resolution.after scope) .empty) = f.resolveIn scope := by
  have hbound : ∀ name ∈ (bound scope fs).map (·.name),
      f.resolveIn scope ≠ .error (.unboundPlaceholder name) := by
    intro name hname
    obtain ⟨p, hp, rfl⟩ := List.mem_map.mp hname
    exact h p hp
  rw [outcome_foldl_after]
  cases hfirst : f.mentions.findSome? (Mention.offence? scope (scope.means f.names)) with
  | none =>
    have hsound := List.findSome?_eq_none_iff.mp hfirst
    have hsound' : f.mentions.findSome? (Mention.offence? scope
        (scope.means ((bound scope fs).map (·.name) ++ f.names))) = none :=
      List.findSome?_eq_none_iff.mpr fun m hm => by
        rw [Mention.offence?_append fun name _ => by rw [hsound m hm]; exact nofun, hsound m hm]
    have hbindable := bindable_iff_sound.mpr hsound
    have hfill : f.body.fill (scope.means ((bound scope fs).map (·.name) ++ f.names)) =
        f.body.fill (scope.means f.names) := by
      refine Expr.fill_congr fun p hp => ?_
      have hname := mem_names_iff.mpr (hbindable.listed p hp)
      rw [Context.means, Context.means, if_pos hname, if_pos (List.mem_append_right _ hname)]
    rw [hsound', hfill, resolveIn_ok_iff.mpr ⟨hbindable, rfl⟩, verdict]
  | some cause =>
    have hrefused := resolveIn_error_iff.mpr hfirst
    -- what comes before the first offence goes well with more names, and this offence stays one
    obtain ⟨before, m, rest, hsplit, hm, hbefore⟩ := List.findSome?_eq_some_iff.mp hfirst
    have hfirst' : f.mentions.findSome? (Mention.offence? scope
        (scope.means ((bound scope fs).map (·.name) ++ f.names))) = some cause := by
      refine List.findSome?_eq_some_iff.mpr ⟨before, m, rest, hsplit, ?_, fun m' hm' => ?_⟩
      · rw [Mention.offence?_append, hm]
        intro name hname heq
        rw [hm, Option.some.injEq] at heq
        exact hbound name hname (heq ▸ hrefused)
      · rw [Mention.offence?_append fun name _ => by rw [hbefore m' hm']; exact nofun,
          hbefore m' hm']
    rw [hfirst', hrefused, verdict]

/-- Fragments in turn. After others, a fragment gives what it would give on its own if it listed what
they have bound. This is what it gives on its own, with one exception: it would be refused on its own,
as unbound, for a name that one before it has bound. A fragment that lists what it uses is always
treated on its own. -/
theorem resolved_in_turn (scope : Fragment.Context) (fs : List Fragment) (f : Fragment) :
    f.outcome scope (fs.foldl (Resolution.after scope) .empty) =
      resolveIn scope ⟨bound scope fs ++ f.params, f.body⟩ ∧
    (f.outcome scope (fs.foldl (Resolution.after scope) .empty) = f.resolveIn scope ↔
      ∀ p ∈ bound scope fs, f.resolveIn scope ≠ .error (.unboundPlaceholder p.name)) ∧
    ∀ body, (infer body).outcome scope (fs.foldl (Resolution.after scope) .empty) =
      (infer body).resolveIn scope := by
  have hfound : ∀ p ∈ bound scope fs, scope.resolve p.name ≠ none := by
    intro p hp hnone
    obtain ⟨s, hs, -⟩ := Placeholder.offence?_eq_none.mp (offence?_of_mem_bound hp)
    rw [hnone] at hs
    cases hs
  refine ⟨outcome_eq_resolveIn_bound f fs, ⟨fun heq p hp hrefused => ?_, outcome_eq_resolveIn⟩,
    fun body => outcome_eq_resolveIn fun p hp h => hfound p hp (resolve_of_infer_unbound h)⟩
  rw [hrefused, outcome_eq_resolveIn_bound] at heq
  rcases unbound_of_error heq with hnone | ⟨hunlisted, -⟩
  · exact hfound p hp hnone
  · exact hunlisted (mem_names_iff.mpr ⟨p, List.mem_append_left _ hp, rfl⟩)

/-- A placeholder that a fragment does not list is refused, unless a fragment before has bound its
name. -/
theorem unlisted_accepted :
    resolveIn (.ofSymbols [⟨0, "x", .int⟩] false) ⟨[], .param ⟨"x", .int⟩⟩ =
      .error (.unboundPlaceholder "x") ∧
    outcome (.ofSymbols [⟨0, "x", .int⟩] false) ⟨[], .param ⟨"x", .int⟩⟩
        ([infer (.param ⟨"x", .int⟩)].foldl
          (Resolution.after (.ofSymbols [⟨0, "x", .int⟩] false)) .empty) =
      .ok (.var ⟨0, "x", .int⟩) :=
  ⟨rfl, rfl⟩

end Fragment

end StructuredFlow
