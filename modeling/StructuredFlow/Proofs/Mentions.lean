import Mathlib.Data.List.TakeWhile
import StructuredFlow.Fragment.Resolution
import StructuredFlow.Proofs.Outcome

/-
  What is asked of a scope when something is resolved in it. An expression mentions placeholders and
  variables, from left to right (`Expr.mentions`); a fragment mentions the placeholders that it lists
  before those of its body (`Fragment.mentions`). A mention may offend: a placeholder, by a name that
  stands for nothing or for a symbol of another type, and a variable, by being out of sight where no
  capture is allowed. Resolving goes through the mentions (`Resolving.through`): it fails for the first
  that offends, with what came before it noted, and otherwise it ends with the variables that names
  stand for in place of the placeholders, and nothing else changed (`Expr.resolve_through`,
  `Fragment.resolve_through`).
-/

namespace StructuredFlow

/-! ## Expressions by their operands -/

namespace Expr

theorem sizeOf_lt_of_mem_children {e c : Expr} (h : c ∈ e.children) : sizeOf c < sizeOf e := by
  cases e with
  | const | param | var => exact absurd h List.not_mem_nil
  | unary | convert =>
    obtain rfl := List.mem_singleton.mp h
    simp only [unary.sizeOf_spec, convert.sizeOf_spec]; omega
  | binary op left right =>
    rcases List.mem_cons.mp h with rfl | h
    · simp only [binary.sizeOf_spec]; omega
    · obtain rfl := List.mem_singleton.mp h
      simp only [binary.sizeOf_spec]; omega
  | _ =>
    have := List.sizeOf_lt_of_mem h
    simp only [children, intrinsic.sizeOf_spec, call.sizeOf_spec, construct.sizeOf_spec,
      list.sizeOf_spec] at this ⊢
    omega

/-- Neither a placeholder nor a variable. -/
def Composed (e : Expr) : Prop :=
  (∀ p, e ≠ param p) ∧ ∀ s, e ≠ var s

/-- Induction over expressions: all but placeholders and variables go by their operands. -/
theorem induct {motive : Expr → Prop} (param : ∀ p, motive (.param p)) (var : ∀ s, motive (.var s))
    (composed : ∀ e : Expr, e.Composed → (∀ c ∈ e.children, motive c) → motive e) (e : Expr) :
    motive e := by
  have operands : ∀ c ∈ e.children, motive c := fun c h =>
    have := sizeOf_lt_of_mem_children h
    induct param var composed c
  cases e with
  | param p => exact param p
  | var s => exact var s
  | _ => exact composed _ ⟨nofun, nofun⟩ operands
termination_by sizeOf e

mutual

/-- The expression with a variable in place of each placeholder whose name stands for one. -/
def fill (meaning : String → Option Symbol) : Expr → Expr
  | const c => const c
  | param p => (meaning p.name).elim (param p) var
  | var s => var s
  | unary op operand => unary op (operand.fill meaning)
  | binary op left right => binary op (left.fill meaning) (right.fill meaning)
  | convert operand ty => convert (operand.fill meaning) ty
  | intrinsic op args => intrinsic op (fillAll meaning args)
  | call function args ty => call function (fillAll meaning args) ty
  | construct ty args => construct ty (fillAll meaning args)
  | list elem items => list elem (fillAll meaning items)

def fillAll (meaning : String → Option Symbol) : List Expr → List Expr
  | [] => []
  | e :: rest => e.fill meaning :: fillAll meaning rest

end

@[simp] theorem fillAll_eq_map (meaning : String → Option Symbol) (es : List Expr) :
    fillAll meaning es = es.map (fill meaning) := by
  induction es with
  | nil => rfl
  | cons e es ih => simp [fillAll, ih]

theorem Composed.fill {e : Expr} (h : e.Composed) (meaning : String → Option Symbol) :
    (e.fill meaning).Composed ∧ (e.fill meaning).children = e.children.map (Expr.fill meaning) := by
  constructor
  · cases e with
    | param p => exact absurd rfl (h.1 p)
    | var s => exact absurd rfl (h.2 s)
    | _ => exact ⟨nofun, nofun⟩
  · cases e with
    | param p => exact absurd rfl (h.1 p)
    | var s => exact absurd rfl (h.2 s)
    | _ => simp [Expr.fill, children]

theorem mem_placeholders_of_child {e c : Expr} (he : e.Composed) (hc : c ∈ e.children)
    {p : Placeholder} (hp : p ∈ c.placeholders) : p ∈ e.placeholders := by
  rw [placeholders_eq_flatMap he.1]
  exact List.mem_flatMap.mpr ⟨c, hc, hp⟩

theorem fill_congr {meaning meaning' : String → Option Symbol} {e : Expr}
    (h : ∀ p ∈ e.placeholders, meaning p.name = meaning' p.name) :
    e.fill meaning = e.fill meaning' := by
  induction e using induct with
  | param p => rw [fill, fill, h p (List.mem_singleton_self p)]
  | var s => rfl
  | composed e he ih =>
    have hchildren : ∀ c ∈ e.children, c.fill meaning = c.fill meaning' := fun c hc =>
      ih c hc fun p hp => h p (mem_placeholders_of_child he hc hp)
    cases e with
    | param p => exact absurd rfl (he.1 p)
    | _ => simp_all [fill, children]

/-- No placeholder is left if every name stands for a symbol. -/
theorem placeholders_fill {meaning : String → Option Symbol} {e : Expr}
    (h : ∀ p ∈ e.placeholders, ∃ s, meaning p.name = some s) :
    (e.fill meaning).placeholders = [] := by
  induction e using induct with
  | param p =>
    obtain ⟨s, hs⟩ := h p (List.mem_singleton_self p)
    rw [fill, hs]
    rfl
  | var s => rfl
  | composed e he ih =>
    obtain ⟨hfill, hchildren⟩ := he.fill meaning
    rw [placeholders_eq_flatMap hfill.1, hchildren, List.flatMap_map, List.flatMap_eq_nil_iff]
    exact fun c hc => ih c hc fun p hp => h p (mem_placeholders_of_child he hc hp)

end Expr

/-! ## Mentions -/

/-- Something that a scope is asked about: a placeholder in the list of a fragment, a placeholder in
an expression, or a variable that an expression has already. -/
inductive Mention where
  | listed (placeholder : Placeholder)
  | param (placeholder : Placeholder)
  | var (symbol : Symbol)
deriving DecidableEq, Repr

namespace Expr

mutual

/-- The mentions of an expression, as they are met from left to right. -/
def mentions : Expr → List Mention
  | const _ => []
  | param p => [.param p]
  | var s => [.var s]
  | unary _ operand | convert operand _ => operand.mentions
  | binary _ left right => left.mentions ++ right.mentions
  | intrinsic _ args | call _ args _ | construct _ args => mentionsAll args
  | list _ items => mentionsAll items

def mentionsAll : List Expr → List Mention
  | [] => []
  | e :: rest => e.mentions ++ mentionsAll rest

end

@[simp] theorem mentionsAll_eq_flatMap (es : List Expr) :
    mentionsAll es = es.flatMap mentions := by
  induction es with
  | nil => rfl
  | cons e es ih => simp [mentionsAll, ih]

theorem Composed.mentions_eq {e : Expr} (h : e.Composed) :
    e.mentions = e.children.flatMap mentions := by
  cases e with
  | param p => exact absurd rfl (h.1 p)
  | var s => exact absurd rfl (h.2 s)
  | _ => simp [mentions, children]

end Expr

namespace Fragment

/-- The names of the listed placeholders. -/
def names (f : Fragment) : List String :=
  f.params.map (·.name)

theorem mem_names_iff {f : Fragment} {name : String} :
    name ∈ f.names ↔ ∃ p ∈ f.params, p.name = name := by
  simp [names]

/-- The mentions of a fragment in the order in which the scope is asked: the listed placeholders,
then those of the body. -/
def mentions (f : Fragment) : List Mention :=
  f.params.map .listed ++ f.body.mentions

end Fragment

/-- What a name stands for in the scope, if it is among the known ones. -/
def Fragment.Context.means (scope : Fragment.Context) (known : List String) (name : String) :
    Option Symbol :=
  if name ∈ known then scope.resolve name else none

/-! ## Offences -/

/-- What is wrong with a placeholder: its name stands for nothing, or for a symbol of another type. -/
def Placeholder.offence? (p : Placeholder) : Option Symbol → Option BuildError
  | none => some (.unboundPlaceholder p.name)
  | some s => if s.ty = p.ty then none else some (.placeholderTypeMismatch p.name p.ty s.ty)

/-- What is wrong with a variable: it is out of sight, and no capture is allowed. -/
def Symbol.offence? (scope : Fragment.Context) (s : Symbol) : Option BuildError :=
  if scope.isVisible s || scope.capturesAllowed then none else some (.unauthorizedCapture s.render)

namespace Mention

variable {scope : Fragment.Context} {meaning : String → Option Symbol}

/-- What is wrong with a mention. A listed placeholder goes by what its name stands for in the scope,
one in an expression by the given meaning. -/
def offence? (scope : Fragment.Context) (meaning : String → Option Symbol) :
    Mention → Option BuildError
  | listed p => p.offence? (scope.resolve p.name)
  | param p => p.offence? (meaning p.name)
  | var s => s.offence? scope

/-- What is kept of a mention that does not offend: the name that a listed placeholder binds, and the
capture of a variable out of sight. -/
def note (scope : Fragment.Context) (r : Resolution) : Mention → Resolution
  | listed p => (scope.resolve p.name).elim r (r.insert p.name)
  | param _ => r
  | var s => if scope.isVisible s then r else r.capture s

/-- The name that a mention binds. -/
def name? : Mention → Option String
  | listed p => some p.name
  | param _ | var _ => none

/-- The variable that is mentioned. -/
def symbol? : Mention → Option Symbol
  | listed _ | param _ => none
  | var s => some s

/-- The mentions before the first that offends. -/
def reached (scope : Fragment.Context) (meaning : String → Option Symbol) (ms : List Mention) :
    List Mention :=
  ms.takeWhile fun m => (m.offence? scope meaning).isNone

theorem offence?_of_mem_reached {ms : List Mention} {m : Mention} (h : m ∈ reached scope meaning ms) :
    m.offence? scope meaning = none := by
  have hsound := List.mem_takeWhile_imp h
  exact Option.isNone_iff_eq_none.mp hsound

theorem bindings_note {m : Mention} (h : m.name? = none) (r : Resolution) :
    (m.note scope r).bindings = r.bindings := by
  cases m with
  | listed p => cases h
  | param p => rfl
  | var s =>
    rw [note]
    split
    · rfl
    · exact Resolution.bindings_capture ..

theorem symbol?_note {m : Mention} (h : m.name? = none) (r : Resolution) :
    (m.note scope r).symbol? = r.symbol? := by
  funext name
  rw [Resolution.symbol?, bindings_note h, Resolution.symbol?]

end Mention

theorem Fragment.Context.means_eq_some {scope : Fragment.Context} {known : List String}
    {name : String} {s : Symbol} :
    scope.means known name = some s ↔ name ∈ known ∧ scope.resolve name = some s := by
  simp [means]

theorem Placeholder.offence?_eq_none {p : Placeholder} {found : Option Symbol} :
    p.offence? found = none ↔ ∃ s, found = some s ∧ s.ty = p.ty := by
  cases found with
  | none => simp [offence?]
  | some s => simp [offence?]

/-- What an expression mentions binds no name. -/
theorem Expr.name?_of_mem_mentions (e : Expr) : ∀ m ∈ e.mentions, m.name? = none := by
  induction e using induct with
  | param p => simp [mentions, Mention.name?]
  | var s => simp [mentions, Mention.name?]
  | composed e he ih =>
    intro m hm
    rw [he.mentions_eq] at hm
    obtain ⟨c, hc, hm⟩ := List.mem_flatMap.mp hm
    exact ih c hc m hm

theorem Placeholder.offence?_eq_unbound {p : Placeholder} {found : Option Symbol} {name : String} :
    p.offence? found = some (.unboundPlaceholder name) ↔ p.name = name ∧ found = none := by
  cases found with
  | none => simp [offence?]
  | some s => rw [offence?]; split <;> simp

theorem Symbol.offence?_ne_unbound {scope : Fragment.Context} (s : Symbol) (name : String) :
    s.offence? scope ≠ some (.unboundPlaceholder name) := by
  rw [offence?]
  split <;> simp

theorem Symbol.offence?_eq_none {scope : Fragment.Context} {s : Symbol} :
    s.offence? scope = none ↔ scope.isVisible s = true ∨ scope.capturesAllowed = true := by
  rw [offence?, ← Bool.or_eq_true]
  cases scope.isVisible s || scope.capturesAllowed <;> simp

/-! ## Resolving -/

namespace Resolving

variable {α β : Type} {scope : Fragment.Context} {meaning : String → Option Symbol}

/-- Goes through mentions: fails for the first that offends, with what came before it noted. -/
def through (scope : Fragment.Context) (meaning : String → Option Symbol) :
    List Mention → α → Resolving α
  | [], a => pure a
  | m :: rest, a => fun r =>
    match m.offence? scope meaning with
    | some cause => .error cause r
    | none => through scope meaning rest a (m.note scope r)

theorem through_append (ms ms' : List Mention) (a : α) (b : β) (r : Resolution) :
    through scope meaning (ms ++ ms') b r =
      match through scope meaning ms a r with
      | .ok _ r' => through scope meaning ms' b r'
      | .error cause r' => .error cause r' := by
  induction ms generalizing r with
  | nil => rfl
  | cons m ms ih =>
    rw [List.cons_append, through, through]
    cases m.offence? scope meaning with
    | none => exact ih _
    | some cause => rfl

theorem through_ok {ms : List Mention} {a b : α} {r r' : Resolution}
    (h : through scope meaning ms a r = .ok b r') :
    b = a ∧ (∀ m ∈ ms, m.offence? scope meaning = none) ∧ r' = ms.foldl (Mention.note scope) r := by
  induction ms generalizing r with
  | nil =>
    obtain ⟨rfl, rfl⟩ := Outcome.pure_ok.mp h
    exact ⟨rfl, nofun, rfl⟩
  | cons m ms ih =>
    rw [through] at h
    split at h
    · cases h
    next hm =>
      obtain ⟨hb, hms, hr'⟩ := ih h
      exact ⟨hb, List.forall_mem_cons.mpr ⟨hm, hms⟩, hr'⟩

/-- Where going through mentions ends: with the first offence, and with what was reached noted. -/
theorem through_eq (ms : List Mention) (a : α) (r : Resolution) :
    through scope meaning ms a r =
      match ms.findSome? (Mention.offence? scope meaning) with
      | none => .ok a ((Mention.reached scope meaning ms).foldl (Mention.note scope) r)
      | some cause =>
        .error cause ((Mention.reached scope meaning ms).foldl (Mention.note scope) r) := by
  induction ms generalizing r with
  | nil => rfl
  | cons m ms ih =>
    rw [through, List.findSome?_cons, Mention.reached, List.takeWhile_cons]
    cases m.offence? scope meaning with
    | none => exact ih _
    | some cause => rfl

/-- The program goes through the mentions, wherever names have the given meaning. -/
def Through (scope : Fragment.Context) (meaning : String → Option Symbol) (ms : List Mention)
    (a : α) (x : Resolving α) : Prop :=
  ∀ r : Resolution, r.symbol? = meaning → x r = through scope meaning ms a r

theorem symbol?_foldl_note {ms : List Mention} (h : ∀ m ∈ ms, m.name? = none) (r : Resolution) :
    (ms.foldl (Mention.note scope) r).symbol? = r.symbol? := by
  induction ms generalizing r with
  | nil => rfl
  | cons m ms ih =>
    obtain ⟨hm, hms⟩ := List.forall_mem_cons.mp h
    rw [List.foldl_cons, ih hms, Mention.symbol?_note hm]

theorem Through.pure (a : α) : Through scope meaning [] a (pure a) :=
  fun _ _ => rfl

/-- What binds no name is followed by a program in which names have the same meaning. -/
theorem Through.andThen {ms ms' : List Mention} {a : α} {b : β} {x : Resolving α}
    {f : α → Resolving β} (hx : Through scope meaning ms a x)
    (hms : ∀ m ∈ ms, m.name? = none) (hf : Through scope meaning ms' b (f a)) :
    Through scope meaning (ms ++ ms') b (x >>= f) := by
  intro r hr
  rw [through_append ms ms' a b r]
  show EStateM.bind x f r = _
  rw [EStateM.bind, hx r hr]
  cases h : through scope meaning ms a r with
  | error cause r' => rfl
  | ok a' r' =>
    obtain ⟨rfl, -, rfl⟩ := through_ok h
    exact hf _ ((symbol?_foldl_note hms r).trans hr)

theorem Through.map {ms : List Mention} {a : α} {x : Resolving α} (g : α → β)
    (hx : Through scope meaning ms a x) :
    Through scope meaning ms (g a) (x >>= fun a => Pure.pure (g a)) := by
  intro r hr
  show EStateM.bind x _ r = _
  rw [EStateM.bind, hx r hr, through_eq, through_eq]
  cases ms.findSome? (Mention.offence? scope meaning) <;> rfl

end Resolving

open Resolving

variable {scope : Fragment.Context} {meaning : String → Option Symbol} {r : Resolution}

theorem Placeholder.resolve_through (p : Placeholder) :
    Through scope meaning [.param p] (Expr.fill meaning (.param p)) p.resolve := by
  intro r hr
  rw [Placeholder.resolve, Outcome.get_andThen, hr, through, Mention.offence?, Expr.fill]
  cases meaning p.name with
  | none => rfl
  | some s =>
    rw [Placeholder.check, Placeholder.offence?]
    split <;> rfl

theorem Symbol.resolve_through (s : Symbol) :
    Through scope meaning [.var s] (.var s) (s.resolve scope) := by
  intro r _
  rw [Symbol.resolve, through]
  simp only [Mention.offence?, Symbol.offence?, Mention.note]
  cases scope.isVisible s <;> cases scope.capturesAllowed <;> rfl

namespace Expr

theorem resolveAll_through {es : List Expr}
    (h : ∀ e ∈ es, Through scope meaning e.mentions (e.fill meaning) (e.resolve scope)) :
    Through scope meaning (es.flatMap mentions) (es.map (fill meaning)) (resolveAll scope es) := by
  induction es with
  | nil => exact .pure _
  | cons e es ih =>
    rw [List.forall_mem_cons] at h
    exact h.1.andThen e.name?_of_mem_mentions ((ih h.2).map _)

/-- Resolving an expression is going through its mentions, and filling it. -/
theorem resolve_through (e : Expr) :
    Through scope meaning e.mentions (e.fill meaning) (e.resolve scope) := by
  induction e using induct with
  | param p => exact p.resolve_through
  | var s => exact s.resolve_through
  | composed e he ih =>
    cases e with
    | const c => exact .pure _
    | param p => exact absurd rfl (he.1 p)
    | var s => exact absurd rfl (he.2 s)
    | unary op operand => exact (ih operand (List.mem_singleton_self _)).map (unary op)
    | binary op left right =>
      have hleft := ih left List.mem_cons_self
      have hright := ih right (List.mem_cons_of_mem _ (List.mem_singleton_self _))
      exact hleft.andThen left.name?_of_mem_mentions (hright.map (binary op _))
    | convert operand ty => exact (ih operand (List.mem_singleton_self _)).map (convert · ty)
    | intrinsic op args =>
      rw [he.mentions_eq, fill, fillAll_eq_map]
      exact (resolveAll_through ih).map (intrinsic op)
    | call function args ty =>
      rw [he.mentions_eq, fill, fillAll_eq_map]
      exact (resolveAll_through ih).map (call function · ty)
    | construct ty args =>
      rw [he.mentions_eq, fill, fillAll_eq_map]
      exact (resolveAll_through ih).map (construct ty)
    | list elem items =>
      rw [he.mentions_eq, fill, fillAll_eq_map]
      exact (resolveAll_through ih).map (list elem)

end Expr

/-! ## Fragments -/

theorem Placeholder.bind_through (p : Placeholder) (r : Resolution) :
    p.bind scope r = through scope meaning [.listed p] () r := by
  rw [Placeholder.bind, through]
  simp only [Mention.offence?, Mention.note]
  cases scope.resolve p.name with
  | none => rfl
  | some s =>
    rw [Placeholder.check, Placeholder.offence?]
    split <;> rfl

theorem Fragment.filterMap_listed (f : Fragment) :
    (f.params.map Mention.listed).filterMap Mention.name? = f.names := by
  rw [List.filterMap_map, names, ← List.filterMap_eq_map]
  rfl

theorem Fragment.bindAll_through (meaning : String → Option Symbol) (ps : List Placeholder)
    (r : Resolution) :
    ps.forM (·.bind scope) r = through scope meaning (ps.map .listed) () r := by
  induction ps generalizing r with
  | nil => rfl
  | cons p ps ih =>
    show _ = through scope meaning ([.listed p] ++ ps.map .listed) () r
    rw [through_append _ _ (), ← p.bind_through]
    show EStateM.bind (p.bind scope) (fun _ => ps.forM (·.bind scope)) r = _
    rw [EStateM.bind]
    cases p.bind scope r with
    | ok u r' => exact ih r'
    | error cause r' => rfl

/-- What names stand for after mentions that do not offend: what is bound in them is known too. -/
theorem Mention.means_foldl_note {known : List String} {ms : List Mention}
    (hr : r.symbol? = scope.means known) (h : ∀ m ∈ ms, m.offence? scope meaning = none) :
    (ms.foldl (Mention.note scope) r).symbol? = scope.means (known ++ ms.filterMap name?) := by
  induction ms generalizing r known with
  | nil => rw [List.foldl_nil, hr, List.filterMap_nil, List.append_nil]
  | cons m ms ih =>
    obtain ⟨hm, hms⟩ := List.forall_mem_cons.mp h
    cases m with
    | listed p =>
      obtain ⟨s, hs, -⟩ := Placeholder.offence?_eq_none.mp hm
      have hnote : ((listed p).note scope r).symbol? = scope.means (known ++ [p.name]) := by
        funext name
        rw [note, hs, Option.elim_some, Resolution.symbol?_insert, hr]
        by_cases hname : name = p.name
        · simp [Fragment.Context.means, hname, hs]
        · simp [Fragment.Context.means, hname]
      rw [List.foldl_cons, ih hnote hms, List.append_assoc]
      rfl
    | param p => exact ih hr hms
    | var s => exact ih ((symbol?_note rfl r).trans hr) hms

/-- Resolving a fragment where some names are known is going through its mentions, and filling its
body with what these names and the listed ones stand for. -/
theorem Fragment.resolve_through (f : Fragment) {known : List String}
    (hr : r.symbol? = scope.means known) :
    f.resolve scope r = through scope (scope.means (known ++ f.names)) f.mentions
      (f.body.fill (scope.means (known ++ f.names))) r := by
  rw [mentions, through_append _ _ (), ← bindAll_through]
  show EStateM.bind (f.params.forM (·.bind scope)) (fun _ => f.body.resolve scope) r = _
  rw [EStateM.bind]
  cases h : f.params.forM (·.bind scope) r with
  | error cause r' => rfl
  | ok u r' =>
    rw [bindAll_through (scope.means (known ++ f.names))] at h
    obtain ⟨-, hsound, rfl⟩ := through_ok h
    refine f.body.resolve_through _ ?_
    rw [Mention.means_foldl_note hr hsound, f.filterMap_listed]

/-- What a fragment gives when it is resolved from a state. -/
def Fragment.outcome (scope : Fragment.Context) (f : Fragment) (r : Resolution) :
    Except BuildError Expr :=
  match (f.resolve scope).run r with
  | .ok e _ => .ok e
  | .error cause _ => .error cause

/-- The state that a fragment leaves behind, accepted or refused. -/
def Resolution.after (scope : Fragment.Context) (r : Resolution) (f : Fragment) : Resolution :=
  match (f.resolve scope).run r with
  | .ok _ r' | .error _ r' => r'

/-- Refused for the offence, or done. -/
def Fragment.verdict : Option BuildError → Expr → Except BuildError Expr
  | none, e => .ok e
  | some cause, _ => .error cause

theorem Fragment.outcome_empty (f : Fragment) : f.outcome scope .empty = f.resolveIn scope := rfl

/-- Nothing is known from the start. -/
theorem Resolution.symbol?_empty (scope : Fragment.Context) :
    Resolution.empty.symbol? = scope.means [] := rfl

theorem Fragment.outcome_eq (f : Fragment) {known : List String}
    (hr : r.symbol? = scope.means known) :
    f.outcome scope r =
      verdict (f.mentions.findSome? (Mention.offence? scope (scope.means (known ++ f.names))))
        (f.body.fill (scope.means (known ++ f.names))) := by
  rw [outcome, EStateM.run, f.resolve_through hr, through_eq]
  cases f.mentions.findSome? (Mention.offence? scope (scope.means (known ++ f.names))) <;> rfl

theorem Fragment.resolveIn_eq (f : Fragment) :
    f.resolveIn scope =
      verdict (f.mentions.findSome? (Mention.offence? scope (scope.means f.names)))
        (f.body.fill (scope.means f.names)) := by
  rw [← outcome_empty]
  exact f.outcome_eq (Resolution.symbol?_empty scope)

theorem Fragment.after_eq (f : Fragment) {known : List String}
    (hr : r.symbol? = scope.means known) :
    r.after scope f =
      (Mention.reached scope (scope.means (known ++ f.names)) f.mentions).foldl
        (Mention.note scope) r := by
  rw [Resolution.after, EStateM.run, f.resolve_through hr, through_eq]
  cases f.mentions.findSome? (Mention.offence? scope (scope.means (known ++ f.names))) <;> rfl

end StructuredFlow
