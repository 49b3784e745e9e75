import StructuredFlow.Proofs.Mentions

/-
  What a fragment mentions once it is resolved: no placeholder is left
  (`Fragment.resolveIn_closed`), and each of its variables is visible in the scope, is what the
  scope means by some name, or is a capture that the scope allows. The invariant behind this is
  that a name is only ever bound to what the scope means by it (`Resolution.Faithful`).
-/

namespace StructuredFlow

namespace Expr

mutual

/-- The variables of an expression, as they are met from left to right. -/
def vars : Expr → List Symbol
  | const _ | param _ => []
  | var s => [s]
  | unary _ operand | convert operand _ => operand.vars
  | binary _ left right => left.vars ++ right.vars
  | intrinsic _ args | call _ args _ | construct _ args => varsAll args
  | list _ items => varsAll items

def varsAll : List Expr → List Symbol
  | [] => []
  | e :: rest => e.vars ++ varsAll rest

end

@[simp] theorem varsAll_eq_flatMap (es : List Expr) :
    varsAll es = es.flatMap vars := by
  induction es with
  | nil => rfl
  | cons e es ih => simp [varsAll, ih]

theorem Composed.vars_eq {e : Expr} (h : e.Composed) : e.vars = e.children.flatMap vars := by
  cases e with
  | var s => exact absurd rfl (h.2 s)
  | _ => simp [vars, children]

/-- The variables of a filled expression are its own and those that its placeholders stand for. -/
theorem mem_vars_fill {meaning : String → Option Symbol} {e : Expr} {x : Symbol} :
    x ∈ (e.fill meaning).vars ↔ x ∈ e.vars ∨ ∃ p ∈ e.placeholders, meaning p.name = some x := by
  induction e using induct with
  | param p =>
    cases h : meaning p.name with
    | none => simp [fill, vars, Expr.placeholders, h]
    | some s => simp [fill, vars, Expr.placeholders, h, eq_comm]
  | var s => simp [fill, vars, Expr.placeholders]
  | composed e he ih =>
    obtain ⟨hfill, hchildren⟩ := he.fill meaning
    rw [hfill.vars_eq, hchildren, he.vars_eq, placeholders_eq_flatMap he.1, List.flatMap_map]
    simp only [List.mem_flatMap]
    constructor
    · rintro ⟨c, hc, hx⟩
      rcases (ih c hc).mp hx with hx | ⟨p, hp, hx⟩
      · exact .inl ⟨c, hc, hx⟩
      · exact .inr ⟨p, ⟨c, hc, hp⟩, hx⟩
    · rintro (⟨c, hc, hx⟩ | ⟨p, ⟨c, hc, hp⟩, hx⟩)
      · exact ⟨c, hc, (ih c hc).mpr (.inl hx)⟩
      · exact ⟨c, hc, (ih c hc).mpr (.inr ⟨p, hp, hx⟩)⟩

/-- What an expression mentions are its placeholders and its variables. -/
theorem mem_mentions_iff {e : Expr} {m : Mention} :
    m ∈ e.mentions ↔ (∃ p ∈ e.placeholders, m = .param p) ∨ ∃ s ∈ e.vars, m = .var s := by
  induction e using induct with
  | param p => simp [mentions, Expr.placeholders, vars]
  | var s => simp [mentions, Expr.placeholders, vars]
  | composed e he ih =>
    rw [he.mentions_eq, he.vars_eq, placeholders_eq_flatMap he.1]
    simp only [List.mem_flatMap]
    constructor
    · rintro ⟨c, hc, hm⟩
      rcases (ih c hc).mp hm with ⟨p, hp, rfl⟩ | ⟨s, hs, rfl⟩
      · exact .inl ⟨p, ⟨c, hc, hp⟩, rfl⟩
      · exact .inr ⟨s, ⟨c, hc, hs⟩, rfl⟩
    · rintro (⟨p, ⟨c, hc, hp⟩, rfl⟩ | ⟨s, ⟨c, hc, hs⟩, rfl⟩)
      · exact ⟨c, hc, (ih c hc).mpr (.inl ⟨p, hp, rfl⟩)⟩
      · exact ⟨c, hc, (ih c hc).mpr (.inr ⟨s, hs, rfl⟩)⟩

variable {scope : Fragment.Context} {meaning : String → Option Symbol} {e : Expr}

/-- A placeholder that does not offend has a name that stands for a symbol of its type. -/
theorem found_of_sound (h : ∀ m ∈ e.mentions, m.offence? scope meaning = none) {p : Placeholder}
    (hp : p ∈ e.placeholders) : ∃ s, meaning p.name = some s ∧ s.ty = p.ty :=
  Placeholder.offence?_eq_none.mp (h _ (mem_mentions_iff.mpr (.inl ⟨p, hp, rfl⟩)))

/-- A variable that does not offend is visible, or may be captured. -/
theorem admitted_of_sound (h : ∀ m ∈ e.mentions, m.offence? scope meaning = none) {s : Symbol}
    (hs : s ∈ e.vars) : scope.isVisible s = true ∨ scope.capturesAllowed = true :=
  Symbol.offence?_eq_none.mp (h _ (mem_mentions_iff.mpr (.inr ⟨s, hs, rfl⟩)))

/-- What an expression is resolved to, and in which state. -/
theorem filled_of_resolve {r r' : Resolution} {e' : Expr} (h : e.resolve scope r = .ok e' r') :
    e' = e.fill r.symbol? ∧ (∀ m ∈ e.mentions, m.offence? scope r.symbol? = none) ∧
      r'.symbol? = r.symbol? := by
  rw [e.resolve_through r rfl] at h
  obtain ⟨he', hsound, rfl⟩ := Resolving.through_ok h
  exact ⟨he', hsound, Resolving.symbol?_foldl_note e.name?_of_mem_mentions r⟩

end Expr

/-- The symbol may stand in what is resolved in the scope. -/
def Fragment.Context.Admits (scope : Fragment.Context) (s : Symbol) : Prop :=
  scope.capturesAllowed = true ∨ scope.isVisible s = true ∨ ∃ name, scope.resolve name = some s

/-- Nothing but admitted variables is left in the expression. -/
structure Expr.Closed (scope : Fragment.Context) (e : Expr) : Prop where
  placeholders : e.placeholders = []
  vars : ∀ s ∈ e.vars, scope.Admits s

/-- Each name is bound to what it means in the scope. -/
def Resolution.Faithful (scope : Fragment.Context) (r : Resolution) : Prop :=
  ∀ name s, r.symbol? name = some s → scope.resolve name = some s

open Outcome

variable {scope : Fragment.Context} {r r' : Resolution}

/-- An expression that is resolved where names are bound to what they mean in the scope is closed. -/
theorem Expr.resolve_closed (e : Expr) {e' : Expr} {r r' : Resolution} (h : r.Faithful scope)
    (hr : e.resolve scope r = .ok e' r') : r'.Faithful scope ∧ e'.Closed scope := by
  obtain ⟨rfl, hsound, hsymbol⟩ := filled_of_resolve hr
  refine ⟨fun name s hs => h name s (hsymbol ▸ hs), ?_, fun s hs => ?_⟩
  · exact placeholders_fill fun p hp => (found_of_sound hsound hp).imp fun s hs => hs.1
  · rcases mem_vars_fill.mp hs with hs | ⟨p, -, hp⟩
    · exact (admitted_of_sound hsound hs).symm.imp_right .inl
    · exact .inr (.inr ⟨p.name, h _ _ hp⟩)

/-- The body of a fragment that is accepted is resolved where every bound name means what it means in
the scope. -/
theorem Fragment.resolveIn_ok {f : Fragment} {e : Expr} (h : f.resolveIn scope = .ok e) :
    ∃ r r', r.Faithful scope ∧ f.body.resolve scope r = .ok e r' := by
  rw [resolveIn] at h
  split at h
  next r' hr =>
    cases h
    simp only [EStateM.run, Fragment.resolve, andThen_ok] at hr
    obtain ⟨_, r₁, hps, hbody⟩ := hr
    refine ⟨r₁, r', fun name s hs => ?_, hbody⟩
    rw [bindAll_through (scope.means f.names)] at hps
    obtain ⟨-, hsound, rfl⟩ := Resolving.through_ok hps
    rw [Mention.means_foldl_note (Resolution.symbol?_empty scope) hsound] at hs
    exact (Context.means_eq_some.mp hs).2
  next => cases h

/-- A fragment that is accepted in a scope is closed there. -/
theorem Fragment.resolveIn_closed {f : Fragment} {e : Expr} (h : f.resolveIn scope = .ok e) :
    e.Closed scope := by
  obtain ⟨r, r', hfaithful, hbody⟩ := resolveIn_ok h
  exact (f.body.resolve_closed hfaithful hbody).2

end StructuredFlow
