import StructuredFlow.Proofs.Mentions

/-
  Resolving a fragment again. A fragment that was accepted asks nothing of its scope but what its
  names stand for and what is visible there, apart from the captures that it may make: it resolves to
  the same expression in every context that keeps these meanings
  (`Fragment.Context.Kept.resolveIn`).
-/

namespace StructuredFlow

/-- The context later on: what a name stood for it stands for, and what was visible is visible. -/
structure Fragment.Context.Kept (scope scope' : Fragment.Context) : Prop where
  resolve : ∀ name s, scope.resolve name = some s → scope'.resolve name = some s
  isVisible : ∀ s, scope.isVisible s = true → scope'.isVisible s = true
  capturesAllowed : scope'.capturesAllowed = scope.capturesAllowed

open Outcome

/-- Whatever the first gives from some bindings, the second gives from the same ones, and the
bindings afterwards are the same again. The captures may differ: what had to be captured may have
come into sight. -/
def Resolving.Repeats {α : Type} (x y : Resolving α) : Prop :=
  ∀ r r' r₁ a, r'.bindings = r.bindings → x r = .ok a r₁ →
    ∃ r₁', y r' = .ok a r₁' ∧ r₁'.bindings = r₁.bindings

namespace Resolving

variable {α β : Type} {scope scope' : Fragment.Context}

theorem Repeats.andThen {x y : Resolving α} {f g : α → Resolving β} (hx : x.Repeats y)
    (hf : ∀ a, (f a).Repeats (g a)) : (x >>= f).Repeats (y >>= g) := by
  intro r r' r₂ b hr h
  obtain ⟨a, r₁, ha, hb⟩ := andThen_ok.mp h
  obtain ⟨r₁', ha', hr₁⟩ := hx _ _ _ _ hr ha
  obtain ⟨r₂', hb', hr₂⟩ := hf a _ _ _ _ hr₁ hb
  exact ⟨r₂', andThen_ok.mpr ⟨a, r₁', ha', hb'⟩, hr₂⟩

end Resolving

namespace Fragment.Context.Kept

open Resolving

variable {α : Type} {scope scope' : Fragment.Context} {meaning : String → Option Symbol}

/-- A mention that does not offend does not offend later on. -/
theorem offence?_eq_none (h : scope.Kept scope') {m : Mention}
    (hm : m.offence? scope meaning = none) : m.offence? scope' meaning = none := by
  cases m with
  | listed p =>
    obtain ⟨s, hs, hty⟩ := Placeholder.offence?_eq_none.mp hm
    exact Placeholder.offence?_eq_none.mpr ⟨s, h.resolve _ _ hs, hty⟩
  | param p => exact hm
  | var s =>
    have hs := Symbol.offence?_eq_none.mp hm
    exact Symbol.offence?_eq_none.mpr (hs.imp (h.isVisible s) h.capturesAllowed.trans)

/-- The same is bound later on. -/
theorem bindings_note (h : scope.Kept scope') {m : Mention} {r r' : Resolution}
    (hm : m.offence? scope meaning = none) (hr : r'.bindings = r.bindings) :
    (m.note scope' r').bindings = (m.note scope r).bindings := by
  cases m with
  | listed p =>
    obtain ⟨s, hs, -⟩ := Placeholder.offence?_eq_none.mp hm
    rw [Mention.note, Mention.note, hs, h.resolve _ _ hs]
    exact congrArg ((p.name, s) :: ·) hr
  | param p => exact hr
  | var s => rw [Mention.bindings_note rfl, Mention.bindings_note rfl, hr]

/-- Mentions that are gone through without an offence are so later on. -/
theorem through (h : scope.Kept scope') (ms : List Mention) (a : α) :
    Repeats (Resolving.through scope meaning ms a) (Resolving.through scope' meaning ms a) := by
  intro r r' r₁ b hr hx
  -- the bindings stay the same on both sides; the captures need not
  induction ms generalizing r r' with
  | nil =>
    obtain ⟨rfl, rfl⟩ := pure_ok.mp hx
    exact ⟨r', rfl, hr⟩
  | cons m ms ih =>
    rw [Resolving.through] at hx
    split at hx
    · cases hx
    next hm =>
      rw [Resolving.through, h.offence?_eq_none hm]
      exact ih _ _ (h.bindings_note hm hr) hx

theorem bindAll (h : scope.Kept scope') (ps : List Placeholder) :
    Repeats (ps.forM (·.bind scope)) (ps.forM (·.bind scope')) := by
  intro r r' r₁ u hr hps
  rw [Fragment.bindAll_through r.symbol?] at hps ⊢
  exact h.through _ _ _ _ _ _ hr hps

theorem expr (h : scope.Kept scope') (e : Expr) :
    Repeats (e.resolve scope) (e.resolve scope') := by
  intro r r' r₁ e' hr he
  have hsymbol : r'.symbol? = r.symbol? := by
    funext name
    rw [Resolution.symbol?, hr, Resolution.symbol?]
  rw [e.resolve_through r rfl] at he
  rw [e.resolve_through r' hsymbol]
  exact h.through _ _ _ _ _ _ hr he

/-- What a fragment was resolved to it is resolved to again. -/
theorem resolveIn (h : scope.Kept scope') {f : Fragment} {e : Expr}
    (hf : f.resolveIn scope = .ok e) : f.resolveIn scope' = .ok e := by
  rw [Fragment.resolveIn] at hf
  split at hf
  next r₁ hr =>
    cases hf
    have hrepeats : Repeats (f.resolve scope) (f.resolve scope') :=
      (h.bindAll f.params).andThen fun _ => h.expr f.body
    obtain ⟨r₁', hr', -⟩ := hrepeats _ _ _ _ rfl hr
    rw [Fragment.resolveIn, EStateM.run, hr']
  next => cases hf

end Fragment.Context.Kept

end StructuredFlow
