import StructuredFlow.Proofs.EvaluationTyped
import StructuredFlow.Proofs.Runs
import StructuredFlow.Proofs.StoredClauses
import StructuredFlow.Proofs.Upkeep

/-
  What the variables of a run hold. Say of each type which values a place of it may hold. If that
  goes well with the checks of the builder and with what the machine does to variables by itself
  (`Storable`), and each value that an assignment stores is one that its type allows, then the
  variables hold nothing else at any time of a run (`Builder.Built.visits_hold`,
  `Builder.Built.evaluates_hold`). Which expressions a run evaluates, and in which machines, is said
  by `Artifact.Evaluates`.
-/

namespace StructuredFlow

variable {ω : Type} {symbols : List Symbol} {m m' : Machine ω} {P : Heap → Ty → Value → Prop}

open Outcome Machine Exec

open Build (Suits)

/-! ## Evaluations of a run -/

/-- The evaluations that a node begins by itself, once it has counted its step, with the machines that
they start from. A branch or a switch that a jump goes down through evaluates nothing; the values of
a switch are tried in their order, as long as none of them is hit. -/
inductive Node.Evaluates : Node → Option Descent → Machine ω → Expr → Machine ω → Prop
  | eval {e d m} : Evaluates (.eval e) d m e m
  | assign {target e d m} : Evaluates (.assign target e) d m e m
  | throw {e d m} : Evaluates (.throw e) d m e m
  | goto {l e d m} : Evaluates (.goto l (some e)) d m e m
  | test {e yes no m} : Evaluates (.branch e yes no) none m e m
  | discriminant {e arms default m} : Evaluates (.switch e arms default) none m e m
  | tried {value arms default m v m₁ before e after m₂}
      (chosen : value.eval m = .ok v m₁)
      (place : arms.flatMap Arm.values = before ++ e :: after)
      (missed : select.selects v before m₁ = .ok false m₂) :
      Evaluates (.switch value arms default) none m e m₂

namespace Node.Evaluates

variable {n : Node} {d : Option Descent} {e : Expr}

theorem evaluated (h : n.Evaluates d m e m') : m.Evaluated m' := by
  cases h with
  | tried chosen _ missed =>
    exact ((Expr.eval_quiet _).ok chosen).trans ((Eval.closed_quiet.selects _ _).ok missed)
  | _ => exact .refl m

end Node.Evaluates

/-- The run of the program evaluates the expression, starting from the machine: a node that it
executes does, or it is an operand of such an expression. -/
def Artifact.Evaluates (a : Artifact) (args : List Value) (m : Machine ω) (e : Expr)
    (m' : Machine ω) : Prop :=
  ∃ fuel around caught c m₁ e₀ m₀, a.Visits args m fuel around caught c ∧
    tick c.machine = .ok () m₁ ∧ c.node.Evaluates c.descent m₁ e₀ m₀ ∧ e₀.Starts m₀ e m'

/-! ## Variables -/

/-- No two of the symbols have the same number. -/
def Symbol.Apart (symbols : List Symbol) : Prop :=
  ∀ x ∈ symbols, ∀ y ∈ symbols, x.id = y.id → x = y

/-- What may stand in a place of a type: its zero, null if it is one of references, whatever a place
takes from another one, and an exception where a handler for it binds it, all that for as long as
the heap goes on. -/
structure Storable (P : Heap → Ty → Value → Prop) : Prop where
  later : ∀ {h h' ty v}, h.Evolves h' → P h ty v → P h' ty v
  zero : ∀ h ty, P h ty (Value.zero ty)
  null : ∀ {h ty}, ty.isReference = true → P h ty .null
  accepted : ∀ {h found place v}, P h found v → place.accepts found = true → P h place v
  caught : ∀ {h ty v}, v.isInstanceOf ty = true → P h ty v

/-- The variables hold what may stand in places of their types. -/
def Machine.Holds (P : Heap → Ty → Value → Prop) (symbols : List Symbol) (m : Machine ω) : Prop :=
  ∀ s ∈ symbols, ∀ v, m.env.get? s.id = some v → P m.heap s.ty v

namespace Machine.Holds

theorem evaluated (sto : Storable P) (hm : m.Holds P symbols) (h : m.Evaluated m') :
    m'.Holds P symbols :=
  fun s hs v hv => sto.later h.heap (hm s hs v (h.env ▸ hv))

theorem assign (hm : m.Holds P symbols) (hapart : Symbol.Apart symbols) {s : Symbol} {v : Value}
    (hs : s ∈ symbols) (hv : P m.heap s.ty v) : (m.assign s v).Holds P symbols := by
  intro x hx w hw
  rw [Machine.assign, Env.get?_insert] at hw
  split at hw
  next hid =>
    obtain rfl := hapart x hx s hs hid
    obtain rfl := Option.some.inj hw
    exact hv
  next => exact hm x hx w hw

theorem declareOne (sto : Storable P) (hm : m.Holds P symbols) (hapart : Symbol.Apart symbols)
    {s : Symbol} (hs : s ∈ symbols) : ({ m with env := m.env.declare s }).Holds P symbols := by
  intro x hx w hw
  rw [Env.get?_declare] at hw
  split at hw
  next hid =>
    obtain rfl := hapart x hx s hs hid.1
    obtain rfl := Option.some.inj hw
    exact sto.zero _ _
  next => exact hm x hx w hw

theorem declare (sto : Storable P) (hm : m.Holds P symbols) (hapart : Symbol.Apart symbols)
    {locals : List Symbol} (hlocals : ∀ s ∈ locals, s ∈ symbols) :
    (m.declare locals).Holds P symbols := by
  induction locals generalizing m with
  | nil => exact hm
  | cons s locals ih =>
    obtain ⟨hs, hlocals⟩ := List.forall_mem_cons.mp hlocals
    exact ih (hm.declareOne sto hapart hs) hlocals

/-- Before a run no variable has a value but the parameters. -/
theorem prepare (hapart : Symbol.Apart symbols) {params : List Symbol} {args : List Value}
    (hparams : ∀ s ∈ params, s ∈ symbols) (hargs : ∀ p ∈ params.zip args, P m.heap p.1.ty p.2) :
    (m.prepare params args).Holds P symbols := by
  have hentries : ∀ (entries : List (Symbol × Value)) (m : Machine ω), m.Holds P symbols →
      (∀ p ∈ entries, p.1 ∈ symbols ∧ P m.heap p.1.ty p.2) →
      (entries.foldl (fun m p => m.assign p.1 p.2) m).Holds P symbols := by
    intro entries
    induction entries with
    | nil => exact fun m hm _ => hm
    | cons p entries ih =>
      intro m hm hall
      obtain ⟨⟨hs, hv⟩, hall⟩ := List.forall_mem_cons.mp hall
      exact ih _ (hm.assign hapart hs hv) hall
  refine hentries _ m.restart (fun s _ v hv => ?_) fun p hp => ?_
  · cases hv
  · exact ⟨hparams _ (List.of_mem_zip hp).1, hargs p hp⟩

theorem upkeep (sto : Storable P) (symbols : List Symbol) :
    Upkeep (fun m : Machine ω => m.Holds P symbols) where
  evaluated := evaluated sto
  steps _ hm := hm
  handling _ hm := hm

end Machine.Holds

/-- What suits a type gives values that may stand in places of it. -/
theorem Build.Suits.holds (sto : Storable P) {expected : Ty} {e : Expr} (h : Suits expected e)
    {v : Value} (hv : e.eval m = .ok v m') (hP : P m'.heap e.type v) : P m'.heap expected v := by
  rcases h with ⟨hnull, hreference⟩ | haccepts
  · cases e with
    | const c =>
      cases c with
      | null ty =>
        obtain ⟨rfl, -⟩ := pure_ok.mp hv
        exact sto.null hreference
      | _ => cases hnull
    | _ => cases hnull
  · exact sto.accepted hP haccepts

/-- A node whose stores suit their places keeps the variables so, if what it assigns may stand in
places of its type. -/
theorem Node.upholds_holds (sto : Storable P) {n : Node} {exit : Label}
    (stored : ∀ cl ∈ n.tells, cl.Stored symbols exit) (hapart : Symbol.Apart symbols)
    (hvalues : ∀ target e m₁ v m₂, n = .assign target e → tick m = .ok () m₁ →
      e.eval m₁ = .ok v m₂ → P m₂.heap e.type v) :
    n.Upholds (Machine.Holds P symbols) m where
  assign target value m₁ v m₂ hn ticked hv hm₂ := by
    subst hn
    obtain ⟨hs, hsuits⟩ := stored _ (List.mem_singleton_self _)
    exact hm₂.assign hapart hs (hsuits.holds sto hv (hvalues _ _ _ _ _ rfl ticked hv))
  declare locals body m' hn hm' := by
    subst hn
    exact hm'.declare sto hapart fun s hs => stored _ (List.mem_map_of_mem (f := Clause.binds) hs)
  catches h hh s hs v m' hkind hm' := by
    cases n with
    | attempt body handlers cleanup =>
      have hmem : Clause.catches h.kind h.binding ∈
          handlers.map fun h => Clause.catches h.kind h.binding :=
        List.mem_map_of_mem (f := fun h : Handler Node => Clause.catches h.kind h.binding) hh
      obtain ⟨hsymbol, hty⟩ := stored _ hmem s hs
      exact hm'.assign hapart hsymbol (hty ▸ sto.caught hkind)
    | _ => exact absurd hh List.not_mem_nil

/-! ## Runs -/

namespace Builder

variable {F : Fragment → Prop} {b : Builder} {a : Artifact} {args : List Value}

theorem Built.symbols_apart (h : b.Built F) : Symbol.Apart b.symbols :=
  fun _ hx _ hy => h.bound_unique hx hy

section

variable (hb : b.Built F) (ha : b.assemble = .ok a) (sto : Storable P)
  (hargs : ∀ p ∈ a.params.zip args, P m.heap p.1.ty p.2)
  (hvalues : ∀ target e m₁ v m₂, .assign target e ∈ a.body.subnodes →
    a.Evaluates args m e m₁ → m₁.Holds P b.symbols → e.eval m₁ = .ok v m₂ → P m₂.heap e.type v)
include hb ha sto hargs hvalues

/-- The variables hold what they may wherever a node is started, and where it has ended. -/
theorem Built.visits_hold {fuel : Nat} {around : List Node}
    {caught : List (Handler Node × Value)} {c : Call ω}
    (hc : a.Visits args m fuel around caught c) :
    c.machine.Holds P b.symbols ∧
      (final (c.result (Node.execWithin fuel))).Holds P b.symbols := by
  have up := Machine.Holds.upkeep (ω := ω) sto b.symbols
  have own {fuel around caught c} (hc : a.Visits args m fuel around caught c)
      (hm : c.machine.Holds P b.symbols) :
      c.node.Upholds (Machine.Holds P b.symbols) c.machine := by
    have hmem := hc.stands.mem_subnodes
    refine Node.upholds_holds sto (hb.nodes_stored ha hmem) hb.symbols_apart ?_
    intro target e m₁ v m₂ hn ticked hv
    have hm₁ : m₁.Holds P b.symbols := tick_ok ticked ▸ hm
    have hnode : c.node.Evaluates c.descent m₁ e m₁ := hn ▸ .assign
    have he : a.Evaluates args m e m₁ := ⟨_, _, _, c, m₁, e, m₁, hc, ticked, hnode, .here⟩
    exact hvalues target e m₁ v m₂ (hn ▸ hmem) he hm₁ hv
  -- The parameters are set before the body is entered; from there on each visited node is in the
  -- program, and keeps the variables so.
  obtain ⟨hparams, -⟩ := assemble_ok ha
  have hentry : (a.entry args m).machine.Holds P b.symbols := by
    refine .prepare hb.symbols_apart (fun s hs => ?_) hargs
    exact List.mem_append_left _ (hparams ▸ hs)
  have hstart := hc.2.good up hentry fun fuel' around' caught' c' hv => own ⟨hc.1, hv⟩
  refine ⟨hstart, Node.good up hstart fun fuel' around' caught' c' hv => ?_⟩
  exact own ⟨hc.1, hc.2.trans hv⟩

/-- And wherever an expression is evaluated. -/
theorem Built.evaluates_hold {e : Expr} {m₁ : Machine ω} (he : a.Evaluates args m e m₁) :
    m₁.Holds P b.symbols := by
  obtain ⟨fuel, around, caught, c, m₀, e₀, m₀', hc, ticked, hnode, hstarts⟩ := he
  have hm₀ : m₀.Holds P b.symbols :=
    tick_ok ticked ▸ (hb.visits_hold ha sto hargs hvalues hc).1
  exact hm₀.evaluated sto (hnode.evaluated.trans hstarts.evaluated)

end

end Builder

end StructuredFlow
