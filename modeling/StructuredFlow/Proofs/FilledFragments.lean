import Mathlib.Data.List.Forall2
import StructuredFlow.Proofs.BindableFragments
import StructuredFlow.Proofs.Operations
import StructuredFlow.Proofs.WellTyped

/-
  What an accepted fragment becomes. In place of each placeholder of its body stands the variable that
  the name stands for in the scope, which has the type that the placeholder asks for. So no type
  changes, of the whole or of any operand (`Expr.sameTypes_fill`), and what has become of the fragment
  asks for nothing any more: where the symbols that names stand for are visible, it is accepted
  again, and stays as it is (`Fragment.accepted_filled`).
-/

namespace StructuredFlow

/-! ## Scopes that show what their names stand for -/

namespace Fragment.Context

/-- Every symbol that a name stands for in the scope is visible there. -/
def ShowsNames (scope : Fragment.Context) : Prop :=
  ∀ name s, scope.resolve name = some s → scope.isVisible s = true

theorem showsNames_ofSymbols (symbols : List Symbol) (capturesAllowed : Bool) :
    (ofSymbols symbols capturesAllowed).ShowsNames := by
  intro name s h
  exact List.any_eq_true.mpr ⟨s, List.mem_of_find?_eq_some h, beq_self_eq_true s.id⟩

end Fragment.Context

theorem Builder.showsNames_context (b : Builder) (id : ScopeId) : (b.context id).ShowsNames :=
  fun _ _ => Chain.isVisible_of_lookup

/-! ## Filled expressions -/

namespace Expr

/-- The expressions have one type, their operands have the same types in turn, and so on at every
depth. -/
inductive SameTypes : Expr → Expr → Prop
  | intro {e e' : Expr} (type : e.type = e'.type)
      (operands : List.Forall₂ SameTypes e.children e'.children) : SameTypes e e'

variable {meaning : String → Option Symbol} {e : Expr}

/-- Filling changes no type, if names stand for symbols of the types that are asked for. -/
theorem sameTypes_fill
    (h : ∀ p ∈ e.placeholders, ∃ s, meaning p.name = some s ∧ s.ty = p.ty) :
    (e.fill meaning).SameTypes e := by
  induction e using induct with
  | param p =>
    obtain ⟨s, hs, hty⟩ := h p (List.mem_singleton_self p)
    rw [fill, hs]
    exact .intro hty .nil
  | var s => exact .intro rfl .nil
  | composed e he ih =>
    have hoperands : ∀ c ∈ e.children, (c.fill meaning).SameTypes c := fun c hc =>
      ih c hc fun p hp => h p (mem_placeholders_of_child he hc hp)
    refine .intro (type_fill h) ?_
    rw [(he.fill meaning).2, List.forall₂_map_left_iff]
    exact List.forall₂_same.mpr hoperands

/-- There is nothing to fill in an expression without placeholders. -/
theorem fill_of_placeholders_eq_nil (h : e.placeholders = []) : e.fill meaning = e := by
  induction e using induct with
  | param p => cases h
  | var s => rfl
  | composed e he ih =>
    rw [placeholders_eq_flatMap he.1, List.flatMap_eq_nil_iff] at h
    have hoperands : ∀ c ∈ e.children, c.fill meaning = c := fun c hc => ih c hc (h c hc)
    have hall : e.children.map (fill meaning) = e.children :=
      (List.map_congr_left hoperands).trans (List.map_id _)
    cases e with
    | param p => exact absurd rfl (he.1 p)
    | _ => simp_all [fill, children]

end Expr

/-! ## Accepted fragments -/

namespace Fragment

variable {scope : Fragment.Context} {f : Fragment} {e : Expr}

/-- An accepted fragment is filled with what names stand for in the scope. -/
theorem Bindable.fill_means (h : f.Bindable scope) :
    f.body.fill (scope.means f.names) = f.body.fill scope.resolve :=
  Expr.fill_congr fun _ => h.means

/-- An expression without placeholders whose variables may be there is accepted as it is. -/
theorem resolveIn_infer (hclosed : e.placeholders = [])
    (hvars : ∀ s ∈ e.vars, scope.isVisible s = true ∨ scope.capturesAllowed = true) :
    (infer e).resolveIn scope = .ok e := by
  have hbindable : (infer e).Bindable scope := by
    refine ⟨⟨?_, ?_⟩, hvars⟩
    · intro p hp
      rw [show (infer e).body = e from rfl, hclosed] at hp
      cases hp
    · intro p hp
      rw [infer, hclosed] at hp
      cases hp
  exact resolveIn_ok_iff.mpr ⟨hbindable, (Expr.fill_of_placeholders_eq_nil hclosed).symm⟩

/-- In a scope that shows what its names stand for, as a list of symbols and the scopes of a builder
do, an accepted fragment becomes its body with the variable that the name stands for in place of each
placeholder. No placeholder is left, all types are as before at every depth, and the result is
accepted again as it is. -/
theorem accepted_filled :
    (∀ symbols allowed, (Context.ofSymbols symbols allowed).ShowsNames) ∧
    (∀ (b : Builder) id, (b.context id).ShowsNames) ∧
    ∀ scope : Fragment.Context, scope.ShowsNames →
      ∀ (f : Fragment) (e : Expr), f.resolveIn scope = .ok e →
      (∀ p ∈ f.body.placeholders, ∃ s, scope.resolve p.name = some s ∧ s.ty = p.ty) ∧
      e = f.body.fill scope.resolve ∧ e.placeholders = [] ∧ e.type = f.type ∧
      e.SameTypes f.body ∧ (infer e).resolveIn scope = .ok e := by
  refine ⟨Context.showsNames_ofSymbols, Builder.showsNames_context, ?_⟩
  intro scope hscope f e hf
  obtain ⟨hbindable, rfl⟩ := resolveIn_ok_iff.mp hf
  rw [hbindable.fill_means]
  have hfound : ∀ p ∈ f.body.placeholders, ∃ s, scope.resolve p.name = some s ∧ s.ty = p.ty :=
    fun p hp => hbindable.found p (List.mem_append_right _ hp)
  have hclosed : (f.body.fill scope.resolve).placeholders = [] :=
    Expr.placeholders_fill fun p hp => (hfound p hp).imp fun s hs => hs.1
  have hvars : ∀ s ∈ (f.body.fill scope.resolve).vars,
      scope.isVisible s = true ∨ scope.capturesAllowed = true := by
    intro s hs
    rcases Expr.mem_vars_fill.mp hs with hs | ⟨p, -, hp⟩
    · exact hbindable.vars s hs
    · exact .inl (hscope p.name s hp)
  exact ⟨hfound, rfl, hclosed, Expr.type_fill hfound, Expr.sameTypes_fill hfound,
    resolveIn_infer hclosed hvars⟩

/-- What an iterator yields is compared with a captured variable: the iterator is read through a
placeholder, whose variable takes its place, and the type of the operand is that of the elements as
before. -/
theorem accepted_filled_in_comparison :
    ∃ (scope : Fragment.Context) (f : Fragment) (e : Expr),
      scope = .ofSymbols [⟨0, "it", .iterator .str true⟩] true ∧
      f = infer (.binary .equal (.intrinsic .current [.param ⟨"it", .iterator .str true⟩])
        (.var ⟨9, "z", .str⟩)) ∧
      e = .binary .equal (.intrinsic .current [.var ⟨0, "it", .iterator .str true⟩])
        (.var ⟨9, "z", .str⟩) ∧
      scope.ShowsNames ∧ f.resolveIn scope = .ok e ∧ e = f.body.fill scope.resolve ∧
      e.placeholders = [] ∧ e.type = f.type ∧ e.SameTypes f.body ∧
      (infer e).resolveIn scope = .ok e := by
  obtain ⟨hsymbols, -, haccepted⟩ := accepted_filled
  have hshows := hsymbols [⟨0, "it", .iterator .str true⟩] true
  have hresolve : (infer (.binary .equal
      (.intrinsic .current [.param ⟨"it", .iterator .str true⟩])
      (.var ⟨9, "z", .str⟩))).resolveIn
        (.ofSymbols [⟨0, "it", .iterator .str true⟩] true) =
      .ok (.binary .equal (.intrinsic .current [.var ⟨0, "it", .iterator .str true⟩])
        (.var ⟨9, "z", .str⟩)) := by rfl
  obtain ⟨-, hfilled⟩ := haccepted _ hshows _ _ hresolve
  exact ⟨_, _, _, rfl, rfl, rfl, hshows, hresolve, hfilled⟩

end Fragment

end StructuredFlow
