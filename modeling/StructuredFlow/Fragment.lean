import StructuredFlow.Expr

/-
  A fragment is an expression together with the placeholders that it may use.
-/

namespace StructuredFlow

namespace Placeholder

/-- The first placeholder of each name. -/
def firstByName : List Placeholder → List Placeholder
  | [] => []
  | p :: rest => p :: (firstByName rest).filter fun q => q.name != p.name

theorem mem_of_mem_firstByName {ps : List Placeholder} {p : Placeholder}
    (h : p ∈ firstByName ps) : p ∈ ps := by
  induction ps with
  | nil => exact h
  | cons q qs ih =>
    simp only [firstByName, List.mem_cons, List.mem_filter] at h
    rcases h with rfl | ⟨h, _⟩
    · exact List.mem_cons_self
    · exact List.mem_cons_of_mem _ (ih h)

theorem exists_firstByName {ps : List Placeholder} {p : Placeholder} (h : p ∈ ps) :
    ∃ q ∈ firstByName ps, q.name = p.name := by
  induction ps with
  | nil => simp at h
  | cons q qs ih =>
    by_cases hq : q.name = p.name
    · exact ⟨q, by simp [firstByName], hq⟩
    · rcases List.mem_cons.mp h with rfl | h
      · exact absurd rfl hq
      · obtain ⟨r, hr, hn⟩ := ih h
        refine ⟨r, ?_, hn⟩
        simp only [firstByName, List.mem_cons, List.mem_filter]
        exact Or.inr ⟨hr, by simpa [hn] using fun e => hq e.symm⟩

end Placeholder

structure Fragment where
  params : List Placeholder
  body : Expr
deriving BEq, Repr, Inhabited

namespace Fragment

/-- The fragment that lists exactly the placeholders it uses, by name in order of appearance. -/
def infer (body : Expr) : Fragment :=
  ⟨Placeholder.firstByName body.placeholders, body⟩

def type (f : Fragment) : Ty :=
  f.body.type

end Fragment

end StructuredFlow
