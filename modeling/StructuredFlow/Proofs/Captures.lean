import StructuredFlow.Proofs.FragmentsInTurn

/-
  What is captured. Fragments that are resolved one after the other mention variables, each fragment
  as far as it gets; those out of sight are captured, each number once and in the order in which they
  are met, and there are none where captures are forbidden, since such a variable offends
  (`Fragment.captures_exact`).
-/

namespace StructuredFlow

variable {scope : Fragment.Context} {r : Resolution} {known : List String}

namespace Mention

/-- The variables out of sight among mentions. -/
def outOfSight (scope : Fragment.Context) (ms : List Mention) : List Symbol :=
  (ms.filterMap symbol?).filter fun s => !scope.isVisible s

theorem captures_note_listed (p : Placeholder) (r : Resolution) :
    ((listed p).note scope r).captures = r.captures := by
  rw [note]
  cases scope.resolve p.name <;> rfl

/-- Noting mentions captures the variables out of sight, like erasing repeated numbers, where what has
been kept so far stands in reverse. -/
theorem captures_foldl_note (ms : List Mention) {kept : List Symbol}
    (hr : r.captures = kept.reverse) :
    (ms.foldl (note scope) r).captures =
      List.eraseDupsBy.loop (fun s t => s.id == t.id) (outOfSight scope ms) kept := by
  induction ms generalizing r kept with
  | nil => exact hr
  | cons m ms ih =>
    rw [List.foldl_cons]
    cases m with
    | listed p => exact ih ((captures_note_listed p r).trans hr)
    | param p => exact ih hr
    | var s =>
      by_cases hs : scope.isVisible s = true
      · have hnote : (var s).note scope r = r := if_pos hs
        have hsight : outOfSight scope (var s :: ms) = outOfSight scope ms := by
          simp [outOfSight, symbol?, hs]
        rw [hnote, hsight]
        exact ih hr
      · have hnote : (var s).note scope r = r.capture s := if_neg hs
        have hsight : outOfSight scope (var s :: ms) = s :: outOfSight scope ms := by
          simp [outOfSight, symbol?, hs]
        have hknown : r.captures.any (·.id == s.id) = kept.any fun t => s.id == t.id := by
          rw [hr, List.any_reverse]
          exact congrArg kept.any (funext fun t => Bool.beq_comm)
        rw [hnote, hsight, List.eraseDupsBy.loop, Resolution.capture, hknown]
        cases kept.any fun t => s.id == t.id with
        | true => exact ih hr
        | false => exact ih (by simp [hr])

end Mention

namespace Fragment

/-- What a fragment gets to mention where some names are known: what comes before the first
offence. -/
def reached (scope : Fragment.Context) (known : List String) (f : Fragment) : List Mention :=
  Mention.reached scope (scope.means (known ++ f.names)) f.mentions

/-- What fragments get to mention one after the other, each with the names known that were bound
before it. -/
def reachedInTurn (scope : Fragment.Context) : List String → List Fragment → List Mention
  | _, [] => []
  | known, f :: fs =>
    f.reached scope known ++ reachedInTurn scope (known ++ (f.binds scope).map (·.name)) fs

theorem foldl_after_eq (fs : List Fragment) (hr : r.symbol? = scope.means known) :
    fs.foldl (Resolution.after scope) r =
      (reachedInTurn scope known fs).foldl (Mention.note scope) r := by
  induction fs generalizing r known with
  | nil => rfl
  | cons f fs ih =>
    rw [List.foldl_cons, ih (f.symbol?_after hr), f.after_eq hr, reachedInTurn, List.foldl_append]
    rfl

/-- No variable that is reached offends. -/
theorem offence?_of_mem_reachedInTurn {fs : List Fragment} {s : Symbol}
    (h : .var s ∈ reachedInTurn scope known fs) : s.offence? scope = none := by
  induction fs generalizing known with
  | nil => cases h
  | cons f fs ih =>
    rcases List.mem_append.mp h with h | h
    · exact Mention.offence?_of_mem_reached h
    · exact ih h

/-- Where captures are forbidden, nothing out of sight is reached. -/
theorem outOfSight_reachedInTurn (fs : List Fragment) (off : scope.capturesAllowed = false) :
    Mention.outOfSight scope (reachedInTurn scope known fs) = [] := by
  refine List.filter_eq_nil_iff.mpr fun s hs => ?_
  obtain ⟨m, hm, hsymbol⟩ := List.mem_filterMap.mp hs
  cases m with
  | var t =>
    cases hsymbol
    have hvisible := Symbol.offence?_eq_none.mp (offence?_of_mem_reachedInTurn hm)
    simp [hvisible.resolve_right (by simp [off])]
  | _ => cases hsymbol

/-- Captures are exact: after any fragments, accepted or refused, they are the variables out of sight
that were reached, the first of each number, in order; and there are none if captures are forbidden. -/
theorem captures_exact (scope : Fragment.Context) (fs : List Fragment) :
    (fs.foldl (Resolution.after scope) .empty).captures =
      if scope.capturesAllowed then
        (Mention.outOfSight scope (reachedInTurn scope [] fs)).eraseDupsBy fun s t => s.id == t.id
      else [] := by
  have hcaptures : (fs.foldl (Resolution.after scope) .empty).captures =
      (Mention.outOfSight scope (reachedInTurn scope [] fs)).eraseDupsBy
        fun s t => s.id == t.id := by
    rw [foldl_after_eq fs (Resolution.symbol?_empty scope)]
    exact Mention.captures_foldl_note _ rfl
  cases hallowed : scope.capturesAllowed with
  | true => exact hcaptures
  | false =>
    rw [outOfSight_reachedInTurn fs hallowed] at hcaptures
    exact hcaptures

end Fragment

end StructuredFlow
