import Mathlib.Data.List.Basic
import StructuredFlow.Proofs.FragmentVariables

/-
  Resolving a fragment where captures are forbidden. An expression has its faults, from left to
  right: placeholders whose names are bound to nothing or to a symbol of another type, and variables
  out of sight (`Expr.faults`). These are the offences of what it mentions
  (`Expr.faults_eq_flatMap_mentions`), so it is resolved to itself with variables in place of its
  placeholders if it has no fault, and refused for the first one otherwise (`Expr.resolve_eq`). A
  fragment whose placeholders are bound properly depends on its variables alone: it is resolved if
  they are all visible, and refused for the first that is not (`Fragment.Bound.resolveIn_eq`).
-/

namespace StructuredFlow

/-- What is wrong with a placeholder whose name is bound to what was found. -/
def Placeholder.faults (p : Placeholder) (found : Option Symbol) : List BuildError :=
  match p.check found with
  | .ok _ => []
  | .error cause => [cause]

/-- What is wrong with a variable that a fragment brings along. -/
def Symbol.faults (scope : Fragment.Context) (s : Symbol) : List BuildError :=
  if scope.isVisible s then [] else [.unauthorizedCapture s.render]

namespace Expr

mutual

/-- What is wrong with an expression, from left to right, where no capture is allowed. -/
def faults (scope : Fragment.Context) (meaning : String → Option Symbol) : Expr → List BuildError
  | const _ => []
  | param p => p.faults (meaning p.name)
  | var s => s.faults scope
  | unary _ operand | convert operand _ => operand.faults scope meaning
  | binary _ left right => left.faults scope meaning ++ right.faults scope meaning
  | intrinsic _ args | call _ args _ | construct _ args => faultsAll scope meaning args
  | list _ items => faultsAll scope meaning items

def faultsAll (scope : Fragment.Context) (meaning : String → Option Symbol) :
    List Expr → List BuildError
  | [] => []
  | e :: rest => e.faults scope meaning ++ faultsAll scope meaning rest

end

@[simp] theorem faultsAll_eq_flatMap (scope : Fragment.Context) (meaning : String → Option Symbol)
    (es : List Expr) : faultsAll scope meaning es = es.flatMap (faults scope meaning) := by
  induction es with
  | nil => rfl
  | cons e es ih => simp [faultsAll, ih]

/-! ## Through the operands -/

theorem Composed.faults_eq {e : Expr} (h : e.Composed) (scope : Fragment.Context)
    (meaning : String → Option Symbol) :
    e.faults scope meaning = e.children.flatMap (faults scope meaning) := by
  cases e with
  | param p => exact absurd rfl (h.1 p)
  | var s => exact absurd rfl (h.2 s)
  | _ => simp [faults, children]

/-- The faults of an expression whose placeholders are bound properly are its variables out of
sight. -/
theorem faults_of_bound {scope : Fragment.Context} {meaning : String → Option Symbol} {e : Expr}
    (h : ∀ p ∈ e.placeholders, p.faults (meaning p.name) = []) :
    e.faults scope meaning = e.vars.flatMap (Symbol.faults scope) := by
  induction e using induct with
  | param p => exact h p (List.mem_singleton_self p)
  | var s => exact (List.append_nil _).symm
  | composed e he ih =>
    rw [he.faults_eq, he.vars_eq, List.flatMap_assoc]
    exact List.flatMap_congr fun c hc => ih c hc fun p hp =>
      h p (mem_placeholders_of_child he hc hp)

end Expr

variable {scope : Fragment.Context} {meaning : String → Option Symbol}

theorem Placeholder.faults_eq (p : Placeholder) (found : Option Symbol) :
    p.faults found = (p.offence? found).toList := by
  cases found with
  | none => rfl
  | some s => by_cases hty : s.ty = p.ty <;> simp [faults, check, offence?, hty]

theorem Symbol.faults_eq (off : scope.capturesAllowed = false) (s : Symbol) :
    s.faults scope = (s.offence? scope).toList := by
  rw [faults, offence?, off]
  cases scope.isVisible s <;> rfl

namespace Expr

/-- The faults of an expression are the offences of what it mentions. -/
theorem faults_eq_flatMap_mentions (off : scope.capturesAllowed = false) (e : Expr) :
    e.faults scope meaning = e.mentions.flatMap fun m => (m.offence? scope meaning).toList := by
  induction e using induct with
  | param p => exact (p.faults_eq _).trans (List.append_nil _).symm
  | var s => exact (s.faults_eq off).trans (List.append_nil _).symm
  | composed e he ih =>
    rw [he.faults_eq, he.mentions_eq, List.flatMap_assoc]
    exact List.flatMap_congr ih

theorem findSome?_mentions (off : scope.capturesAllowed = false) (e : Expr) :
    e.mentions.findSome? (Mention.offence? scope meaning) = (e.faults scope meaning).head? := by
  simp only [faults_eq_flatMap_mentions off, List.head?_flatMap, Option.head?_toList]

end Expr

/-! ## The outcome -/

/-- Refused for the first fault, else done. -/
def Resolving.ending {α : Type} : List BuildError → α → Resolving α
  | [], a => pure a
  | cause :: _, _ => throw cause

/-- Where captures are forbidden, nothing is kept of the mentions that are reached, if they bind no
name. -/
theorem Mention.foldl_note_reached (off : scope.capturesAllowed = false) {ms : List Mention}
    (hms : ∀ m ∈ ms, m.name? = none) (r : Resolution) :
    (reached scope meaning ms).foldl (note scope) r = r := by
  refine List.foldlRecOn _ _ (motive := (· = r)) rfl ?_
  rintro _ rfl m hm
  have hsound := offence?_of_mem_reached hm
  have hname := hms m ((List.takeWhile_sublist _).subset hm)
  cases m with
  | listed p => cases hname
  | param p => rfl
  | var s => exact if_pos ((Symbol.offence?_eq_none.mp hsound).resolve_right (by simp [off]))

/-- Resolving an expression where captures are forbidden: refused for the first fault, or filled. -/
theorem Expr.resolve_eq (off : scope.capturesAllowed = false) (r : Resolution) (e : Expr) :
    e.resolve scope r = Resolving.ending (e.faults scope r.symbol?) (e.fill r.symbol?) r := by
  rw [e.resolve_through r rfl, Resolving.through_eq,
    Mention.foldl_note_reached off e.name?_of_mem_mentions, findSome?_mentions off]
  cases e.faults scope r.symbol? <;> rfl

namespace Fragment

variable {f : Fragment} {e : Expr}

/-- The placeholders of the body are listed, and every placeholder's name means a symbol of its type
in the scope. -/
structure Bound (scope : Fragment.Context) (f : Fragment) : Prop where
  listed : ∀ p ∈ f.body.placeholders, ∃ q ∈ f.params, q.name = p.name
  found : ∀ p ∈ f.params ++ f.body.placeholders, ∃ s, scope.resolve p.name = some s ∧ s.ty = p.ty

theorem faults_eq_nil_of_found {p : Placeholder} {found : Option Symbol}
    (h : ∃ s, found = some s ∧ s.ty = p.ty) : p.faults found = [] := by
  obtain ⟨s, rfl, hty⟩ := h
  rw [Placeholder.faults, Placeholder.check, if_pos hty]

/-- The first fault among variables is that of the first variable out of sight. -/
theorem head?_faults (scope : Fragment.Context) (xs : List Symbol) :
    (xs.flatMap (Symbol.faults scope)).head? =
      (xs.find? fun x => !scope.isVisible x).map fun x => .unauthorizedCapture x.render := by
  induction xs with
  | nil => rfl
  | cons x xs ih =>
    by_cases hx : scope.isVisible x = true
    · rw [List.flatMap_cons, Symbol.faults, if_pos hx, List.nil_append, ih,
        List.find?_cons_of_neg (by simpa using hx)]
    · rw [List.flatMap_cons, Symbol.faults, if_neg hx, List.find?_cons_of_pos (by simpa using hx)]
      rfl

/-- The names of the placeholders of a bound fragment stand for what they mean in the scope. -/
theorem Bound.means (h : f.Bound scope) {p : Placeholder} (hp : p ∈ f.body.placeholders) :
    scope.means f.names p.name = scope.resolve p.name :=
  if_pos (mem_names_iff.mpr (h.listed p hp))

/-- A fragment with nothing wrong about its placeholders is refused for the first variable out of
sight, and resolved if there is none. -/
theorem Bound.resolveIn_eq (h : f.Bound scope) (off : scope.capturesAllowed = false) :
    f.resolveIn scope =
      match f.body.vars.find? fun x => !scope.isVisible x with
      | some x => .error (.unauthorizedCapture x.render)
      | none => .ok (f.body.fill scope.resolve) := by
  have hlisted : (f.params.map Mention.listed).findSome?
      (Mention.offence? scope (scope.means f.names)) = none := by
    refine List.findSome?_eq_none_iff.mpr fun m hm => ?_
    obtain ⟨p, hp, rfl⟩ := List.mem_map.mp hm
    exact Placeholder.offence?_eq_none.mpr (h.found p (List.mem_append_left _ hp))
  have hfaults : f.body.faults scope (scope.means f.names) =
      f.body.vars.flatMap (Symbol.faults scope) :=
    Expr.faults_of_bound fun p hp =>
      faults_eq_nil_of_found (h.means hp ▸ h.found p (List.mem_append_right _ hp))
  rw [Fragment.resolveIn_eq, mentions, List.findSome?_append, hlisted, Option.none_or,
    Expr.findSome?_mentions off, hfaults, head?_faults, Expr.fill_congr fun p hp => h.means hp]
  cases f.body.vars.find? fun x => !scope.isVisible x <;> rfl

theorem Bound.resolveIn_capture (h : f.Bound scope) (off : scope.capturesAllowed = false)
    {x : Symbol} (first : f.body.vars.find? (fun x => !scope.isVisible x) = some x) :
    f.resolveIn scope = .error (.unauthorizedCapture x.render) := by
  rw [h.resolveIn_eq off, first]

/-- An accepted fragment is its body, filled with what names mean in the scope; its own variables are
visible. -/
theorem filled_of_resolveIn (off : scope.capturesAllowed = false) (h : f.resolveIn scope = .ok e) :
    (∀ x ∈ f.body.vars, scope.isVisible x = true) ∧
      ∀ x ∈ e.vars, x ∈ f.body.vars ∨ ∃ name, scope.resolve name = some x := by
  obtain ⟨r, r', hfaithful, hbody⟩ := resolveIn_ok h
  obtain ⟨rfl, hsound, -⟩ := Expr.filled_of_resolve hbody
  refine ⟨fun x hx => ?_, fun x hx => ?_⟩
  · exact (Expr.admitted_of_sound hsound hx).resolve_right (by simp [off])
  · rcases Expr.mem_vars_fill.mp hx with hx | ⟨p, -, hp⟩
    · exact .inl hx
    · exact .inr ⟨p.name, hfaithful _ _ hp⟩

end Fragment

end StructuredFlow
