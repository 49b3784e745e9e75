import StructuredFlow.Proofs.FragmentVariables
import StructuredFlow.Proofs.Visits

/-
  Nodes that fit into their surroundings. Surroundings say what a place of a program can count on:
  variables that have a value, labels that some node around takes jumps to, and an exception that
  is being handled. A node fits if it asks for nothing else (`Node.Fits`). In a machine that has
  what the surroundings promise, every visit of a fitting node finds what it asks for
  (`Node.Visits.fits`); so no variable is read without a value, a jump goes where the surroundings
  take it (`Node.Fits.jump`), and no exception is missing where one is raised again
  (`Node.Fits.failed`).
-/

namespace StructuredFlow

variable {ω : Type}

/-- What a place can count on; with `captures`, variables may be missing. A program returns with a
jump to the label `exit`. -/
structure Surroundings where
  captures : Prop
  exit : Label
  bound : SymbolId → Prop
  targets : LabelId → Prop
  handling : Prop

namespace Surroundings

/-- The other surroundings offer as much. -/
structure Le (Γ Γ' : Surroundings) : Prop where
  captures : Γ.captures → Γ'.captures
  exit : Γ'.exit = Γ.exit
  bound : ∀ id, Γ.bound id → Γ'.bound id
  targets : ∀ l, Γ.targets l → Γ'.targets l
  handling : Γ.handling → Γ'.handling

instance : LE Surroundings := ⟨Le⟩

variable {Γ Γ' Γ'' : Surroundings}

theorem le_refl (Γ : Surroundings) : Γ ≤ Γ :=
  ⟨id, rfl, fun _ => id, fun _ => id, id⟩

theorem le_trans (h : Γ ≤ Γ') (h' : Γ' ≤ Γ'') : Γ ≤ Γ'' :=
  ⟨h'.captures ∘ h.captures, h'.exit.trans h.exit, fun id => h'.bound id ∘ h.bound id,
    fun l => h'.targets l ∘ h.targets l, h'.handling ∘ h.handling⟩

/-- With further variables that have a value. -/
def bind (Γ : Surroundings) (symbols : List Symbol) : Surroundings :=
  { Γ with bound := fun id => Γ.bound id ∨ ∃ s ∈ symbols, s.id = id }

/-- Inside of a loop, which takes jumps to its two labels. -/
def around (Γ : Surroundings) (leave next : Label) : Surroundings :=
  { Γ with targets := fun l => Γ.targets l ∨ l = leave.id ∨ l = next.id }

/-- Inside of a handler. -/
def inHandler (Γ : Surroundings) (binding : Option Symbol) : Surroundings :=
  { Γ.bind binding.toList with handling := True }

theorem le_bind (Γ : Surroundings) (symbols : List Symbol) : Γ ≤ Γ.bind symbols :=
  ⟨id, rfl, fun _ => .inl, fun _ => id, id⟩

theorem le_around (Γ : Surroundings) (leave next : Label) : Γ ≤ Γ.around leave next :=
  ⟨id, rfl, fun _ => id, fun _ => .inl, id⟩

theorem le_inHandler (Γ : Surroundings) (binding : Option Symbol) : Γ ≤ Γ.inHandler binding :=
  ⟨id, rfl, fun _ => .inl, fun _ => id, fun _ => trivial⟩

theorem bind_mono (h : Γ ≤ Γ') {xs ys : List Symbol} (hxs : xs ⊆ ys) : Γ.bind xs ≤ Γ'.bind ys where
  captures := h.captures
  exit := h.exit
  bound id hid := hid.imp (h.bound id) fun ⟨s, hs, hsid⟩ => ⟨s, hxs hs, hsid⟩
  targets := h.targets
  handling := h.handling

theorem bind_nil_le (Γ : Surroundings) : Γ.bind [] ≤ Γ where
  captures := id
  exit := rfl
  bound id hid := by
    rcases hid with hid | ⟨s, hs, -⟩
    · exact hid
    · exact absurd hs List.not_mem_nil
  targets _ := id
  handling := id

theorem around_mono (h : Γ ≤ Γ') (leave next : Label) :
    Γ.around leave next ≤ Γ'.around leave next where
  captures := h.captures
  exit := h.exit
  bound := h.bound
  targets l hl := hl.imp_left (h.targets l)
  handling := h.handling

theorem inHandler_mono (h : Γ ≤ Γ') (binding : Option Symbol) :
    Γ.inHandler binding ≤ Γ'.inHandler binding where
  captures := h.captures
  exit := h.exit
  bound := (bind_mono h (List.Subset.refl _)).bound
  targets := h.targets
  handling := id

/-- The expression reads variables that have a value, and nothing is left open in it. -/
structure Reads (Γ : Surroundings) (e : Expr) : Prop where
  placeholders : e.placeholders = []
  vars : ∀ s ∈ e.vars, Γ.captures ∨ Γ.bound s.id

theorem Reads.mono {e : Expr} (h : Γ.Reads e) (hle : Γ ≤ Γ') : Γ'.Reads e :=
  ⟨h.placeholders, fun s hs => (h.vars s hs).imp hle.captures (hle.bound s.id)⟩

/-- A jump to the label is taken, and is not a return. -/
structure Leads (Γ : Surroundings) (l : LabelId) : Prop where
  target : Γ.targets l
  inside : l ≠ Γ.exit.id

theorem Leads.mono {l : LabelId} (h : Γ.Leads l) (hle : Γ ≤ Γ') : Γ'.Leads l :=
  ⟨hle.targets l h.target, hle.exit ▸ h.inside⟩

/-- A jump that may be made: it is taken, and if it is a return without a value then the program
gives none. -/
structure Takes (Γ : Surroundings) (l : LabelId) (value : Option Expr) : Prop where
  target : Γ.targets l
  void : l = Γ.exit.id → value = none → Γ.exit.ty = .void

theorem Takes.mono {l : LabelId} {value : Option Expr} (h : Γ.Takes l value) (hle : Γ ≤ Γ') :
    Γ'.Takes l value :=
  ⟨hle.targets l h.target, hle.exit ▸ h.void⟩

theorem Leads.takes {l : LabelId} (h : Γ.Leads l) (value : Option Expr) : Γ.Takes l value :=
  ⟨h.target, fun hl => absurd hl h.inside⟩

end Surroundings

namespace Node

variable {Γ Γ' : Surroundings} {n : Node}

/-- What a node asks of its surroundings itself. -/
structure Checks (Γ : Surroundings) (n : Node) : Prop where
  reads : ∀ e ∈ n.reads, Γ.Reads e
  jump : ∀ l value, n = .goto l value → Γ.Takes l.id value
  rethrow : n = .rethrow → Γ.handling
  writes : ∀ s e, n = .assign s e → Γ.bound s.id

theorem Checks.mono (h : n.Checks Γ) (hle : Γ ≤ Γ') : n.Checks Γ' where
  reads e he := (h.reads e he).mono hle
  jump l value hn := (h.jump l value hn).mono hle
  rethrow hn := hle.handling (h.rethrow hn)
  writes s e hn := hle.bound s.id (h.writes s e hn)

/-- The surroundings of what is directly below a node: of a part of it, or of the body of one of
its handlers. -/
def within (Γ : Surroundings) : Node → Option (Handler Node) → Surroundings
  | block locals _, _ => Γ.bind locals
  | loop _ leave next, _ => Γ.around leave next
  | attempt _ _ _, some h => Γ.inHandler h.binding
  | _, _ => Γ

theorem within_mono (hle : Γ ≤ Γ') (n : Node) (h : Option (Handler Node)) :
    n.within Γ h ≤ n.within Γ' h := by
  cases n with
  | block locals body => exact Surroundings.bind_mono hle (List.Subset.refl _)
  | loop body leave next => exact Surroundings.around_mono hle leave next
  | attempt body handlers cleanup =>
    cases h with
    | none => exact hle
    | some h => exact Surroundings.inHandler_mono hle h.binding
  | _ => exact hle

/-- The node and all nodes below it ask for what their surroundings offer, and for nothing else. -/
inductive Fits : Surroundings → Node → Prop
  | intro {Γ : Surroundings} {n : Node} (checks : n.Checks Γ)
      (parts : ∀ c ∈ n.parts, Fits (n.within Γ none) c)
      (handlers : ∀ h ∈ n.handlers, Fits (n.within Γ (some h)) h.body) : Fits Γ n

namespace Fits

theorem checks (h : n.Fits Γ) : n.Checks Γ := by
  cases h with
  | intro checks => exact checks

theorem part (h : n.Fits Γ) {c : Node} (hc : c ∈ n.parts) : c.Fits (n.within Γ none) := by
  cases h with
  | intro _ parts => exact parts c hc

theorem handler (h : n.Fits Γ) {h' : Handler Node} (hh : h' ∈ n.handlers) :
    h'.body.Fits (n.within Γ (some h')) := by
  cases h with
  | intro _ _ handlers => exact handlers h' hh

theorem mono (h : n.Fits Γ) (hle : Γ ≤ Γ') : n.Fits Γ' := by
  induction h generalizing Γ' with
  | @intro Γ n checks parts handlers ihParts ihHandlers =>
    refine .intro (checks.mono hle) (fun c hc => ?_) (fun h hh => ?_)
    · exact ihParts c hc (within_mono hle n none)
    · exact ihHandlers h hh (within_mono hle n (some h))

/-- A node without nodes below it fits if it finds what it asks for. -/
theorem leaf (h : n.Checks Γ) (hparts : n.parts = [])
    (hhandlers : n.handlers = []) : n.Fits Γ := by
  refine .intro h (fun c hc => ?_) (fun h' hh => ?_)
  · rw [hparts] at hc
    exact absurd hc List.not_mem_nil
  · rw [hhandlers] at hh
    exact absurd hh List.not_mem_nil

/-- Such a node that neither jumps nor raises an exception again asks for the variables that it
reads only, if it does not assign one. -/
theorem of_reads (hreads : ∀ e ∈ n.reads, Γ.Reads e)
    (hparts : n.parts = []) (hhandlers : n.handlers = [])
    (hgoto : ∀ l value, n ≠ .goto l value) (hrethrow : n ≠ .rethrow)
    (hassign : ∀ s e, n ≠ .assign s e) : n.Fits Γ :=
  .leaf ⟨hreads, fun l value h => absurd h (hgoto l value), fun h => absurd h hrethrow,
    fun s e h => absurd h (hassign s e)⟩ hparts hhandlers

/-- An assignment fits where its variable has a value. -/
theorem assign {s : Symbol} {e : Expr} (hs : Γ.bound s.id) (he : Γ.Reads e) :
    (Node.assign s e).Fits Γ := by
  refine .leaf ⟨fun e' he' => ?_, nofun, nofun, fun s' e' h => ?_⟩ rfl rfl
  · obtain rfl := List.mem_singleton.mp he'
    exact he
  · cases h
    exact hs

/-- A jump fits where jumps to its label are taken. -/
theorem goto {l : Label} {value : Option Expr} (hl : Γ.Takes l.id value)
    (hvalue : ∀ e ∈ value, Γ.Reads e) : (Node.goto l value).Fits Γ := by
  refine .leaf ⟨fun e he => ?_, fun l' value' h => ?_, nofun, nofun⟩ rfl rfl
  · exact hvalue e (Option.mem_toList.mp he)
  · cases h
    exact hl

theorem label (l : Label) (default : Option Constant) : (Node.label l default).Fits Γ :=
  .leaf ⟨nofun, nofun, nofun, nofun⟩ rfl rfl

end Fits

/-! ## Machines that keep what surroundings promise -/

end Node

/-- Every variable that the surroundings promise has a value in the machine. -/
def Surroundings.Bound (Γ : Surroundings) (m : Machine ω) : Prop :=
  ∀ id, Γ.bound id → m.env.contains id = true

theorem Surroundings.Bound.of_grows {Γ : Surroundings} {m m' : Machine ω} (h : Γ.Bound m)
    (hgrows : m.env.Grows m'.env) : Γ.Bound m' :=
  fun id hid => hgrows id (h id hid)

namespace Node

variable {Γ : Surroundings} {n : Node} {fuel : Nat} {d : Option Descent} {m : Machine ω}
  {entered : Option (Handler Node × Value)} {c : Call ω}

namespace Calls

/-- What is called fits into the surroundings inside of the node. -/
theorem fits (h : Calls fuel n d m entered c) (hn : n.Fits Γ) :
    c.node.Fits (n.within Γ (entered.map Prod.fst)) := by
  rcases h.place with ⟨rfl, hc⟩ | ⟨h', v, rfl, hh, hc⟩
  · exact hn.part hc
  · rw [hc]
    exact hn.handler hh

/-- A node puts into the machine what its surroundings inside promise in addition. -/
theorem within_bound (h : Calls fuel n d m entered c) (hm : Γ.Bound m) :
    (n.within Γ (entered.map Prod.fst)).Bound c.machine := by
  have hgrows : Γ.Bound c.machine := hm.of_grows h.arrives.env
  cases n with
  | block locals body =>
    intro id hid
    rcases hid with hid | ⟨s, hs, rfl⟩
    · exact hgrows id hid
    · exact h.declared hs
  | attempt body handlers cleanup =>
    cases entered with
    | none => exact hgrows
    | some e =>
      obtain ⟨hd, v⟩ := e
      intro id hid
      rcases hid with hid | ⟨s, hs, rfl⟩
      · exact hgrows id hid
      · exact h.bound (Option.mem_toList.mp hs)
  | _ => exact hgrows

end Calls

theorem exit_within (n : Node) (h : Option (Handler Node)) : (n.within Γ h).exit = Γ.exit := by
  cases n <;> cases h <;> rfl

theorem captures_within (n : Node) (h : Option (Handler Node)) :
    (n.within Γ h).captures = Γ.captures := by
  cases n <;> cases h <;> rfl

theorem handling_within (h : Option (Handler Node)) (hn : (n.within Γ h).handling) :
    Γ.handling ∨ h ≠ none := by
  cases h with
  | some h => exact .inr fun e => nomatch e
  | none => cases n <;> exact .inl hn

/-- Every visit of a fitting node fits too, into surroundings that its machine keeps; in them an
exception is being handled only if a handler has been entered. -/
theorem Visits.fits {fuel' : Nat} {c c' : Call ω} {around : List Node}
    {caught : List (Handler Node × Value)} (h : Visits fuel c fuel' around caught c')
    (hc : c.node.Fits Γ) (hm : Γ.Bound c.machine) :
    ∃ Γ', c'.node.Fits Γ' ∧ Γ'.Bound c'.machine ∧ Γ'.exit = Γ.exit ∧
      (Γ'.captures → Γ.captures) ∧ (Γ'.handling → Γ.handling ∨ caught ≠ []) := by
  induction h generalizing Γ with
  | here => exact ⟨Γ, hc, hm, rfl, id, .inl⟩
  | @inside fuel c entered c₁ fuel' around caught c' call later ih =>
    obtain ⟨Γ', hfits, hbound, hexit, hcaptures, hhandling⟩ :=
      ih (call.fits hc) (call.within_bound hm)
    refine ⟨Γ', hfits, hbound, hexit.trans (exit_within _ _), fun h => ?_, fun h => ?_⟩
    · have := hcaptures h
      rwa [captures_within] at this
    · rcases hhandling h with h | h
      · refine (handling_within _ h).imp_right fun he => ?_
        cases entered with
        | none => exact absurd rfl he
        | some e => exact fun h => absurd h (by simp)
      · exact .inr fun he => h (List.append_eq_nil_iff.mp he).1

end Node

/-! ## Causes to stop -/

/-- The causes that can stop a program which fits: what the host raises, values of the wrong type,
variables that were captured, the step limit, and jumps into handlers. -/
inductive Stops (captures : Prop) (host : Host ω) : EvalError → Prop
  | thrown (v : Value) : Stops captures host (.thrown v)
  | typeError (fault : TypeFault) : Stops captures host (.typeError fault)
  | host {name args world cause world'} (raised : host.call name args world = .error cause world') :
      Stops captures host cause
  | capture (s : Symbol) (captured : captures) : Stops captures host (.unboundSymbol s)
  | stepLimit (limit : Nat) : Stops captures host (.stepLimit limit)
  | jumpIntoHandler (l : LabelId) : Stops captures host (.jumpIntoHandler l)

open Outcome

namespace Eval

variable {α : Type} {captures : Prop} {host : Host ω}

/-- Whatever stops the program is one of the causes. -/
def Stopping (captures : Prop) (host : Host ω) (x : Eval ω α) : Prop :=
  ∀ m cause m', x m = .error cause m' → Stops captures host cause

theorem stopping_pure (a : α) : Stopping captures host (pure a : Eval ω α) :=
  fun _ _ _ h => (pure_error.mp h).elim

theorem stopping_typeError (fault : TypeFault) :
    Stopping captures host (throw (.typeError fault) : Eval ω α) :=
  fun _ _ _ h => (throw_error.mp h).1 ▸ .typeError fault

theorem newObject_stops (className : String) (fields : List Value) :
    Stopping captures host (newObject className fields) :=
  fun _ _ _ h => (modifyGet_error.mp h).elim

theorem divisionByZero_stops : Stopping captures host divisionByZero := by
  intro m cause m' h
  rcases andThen_error.mp h with h | ⟨v, m₁, -, h⟩
  · exact newObject_stops _ _ _ _ _ h
  · exact (throw_error.mp h).1 ▸ .thrown v

theorem unary_stops (op : UnaryOp) (v : Value) : Stopping captures host (unary op v) := by
  unfold unary
  split
  · exact stopping_pure _
  · exact stopping_pure _
  · exact stopping_pure _
  · exact stopping_typeError _

theorem arith_stops (op : Arith) (a b : Value) : Stopping captures host (arith op a b) := by
  unfold arith
  split
  · split
    · exact stopping_pure _
    · exact divisionByZero_stops
  · split
    · exact stopping_pure _
    · exact divisionByZero_stops
  · split
    · exact stopping_pure _
    · exact stopping_typeError _
  · exact stopping_typeError _

theorem order_stops (op : Order) (a b : Value) : Stopping captures host (order op a b) := by
  unfold order
  split
  · exact stopping_pure _
  · exact stopping_pure _
  · exact stopping_pure _
  · exact stopping_typeError _

theorem binary_stops (op : BinaryOp) (a b : Value) : Stopping captures host (binary op a b) := by
  unfold binary
  split
  · exact arith_stops _ _ _
  · exact stopping_pure _
  · exact stopping_pure _
  · exact order_stops _ _ _
  all_goals
    split
    · exact stopping_pure _
    · exact stopping_typeError _

theorem convert_stops (v : Value) (ty : Ty) : Stopping captures host (convert v ty) := by
  unfold convert
  split
  · exact stopping_pure _
  · exact stopping_typeError _

theorem current_stops (id : CursorId) : Stopping captures host (current id) := by
  intro m cause m' h
  unfold current at h
  rw [get_andThen] at h
  cases hc : (m.heap.cursor id).current with
  | some v =>
    rw [hc] at h
    cases h
  | none =>
    rw [hc] at h
    exact stopping_typeError _ _ _ _ h

theorem intrinsic_stops (op : Intrinsic) (args : List Value) :
    Stopping captures host (intrinsic op args) := by
  unfold intrinsic
  split
  · exact fun _ _ _ h => (modifyGet_error.mp h).elim
  · exact fun _ _ _ h => (modifyGet_error.mp h).elim
  · exact fun _ _ _ h => (modifyGet_error.mp h).elim
  · exact current_stops _
  next v =>
    intro m cause m' h
    unfold dispose at h
    cases v <;> cases h
  · exact stopping_pure _
  · exact stopping_typeError _

theorem construct_stops (ty : Ty) (fields : List Value) :
    Stopping captures host (construct ty fields) := by
  unfold construct
  split
  · exact newObject_stops _ _
  · exact stopping_typeError _

theorem callHost_stops {name : String} {args : List Value} {m m' : Machine ω} {cause : EvalError}
    (h : callHost name args m = .error cause m') : Stops captures m.host cause := by
  unfold callHost at h
  split at h
  · cases h
  next raised =>
    cases h
    exact .host raised

theorem read_stops {s : Symbol} {m m' : Machine ω} {cause : EvalError}
    (hs : captures ∨ m.env.contains s.id = true) (h : read s m = .error cause m') :
    Stops captures host cause := by
  unfold read at h
  rw [get_andThen] at h
  cases hv : m.env.get? s.id with
  | some v =>
    rw [hv] at h
    cases h
  | none =>
    rw [hv] at h
    obtain ⟨rfl, -⟩ := throw_error.mp h
    rcases hs with hc | hc
    · exact .capture s hc
    · rw [Env.contains, hv] at hc
      cases hc

end Eval

namespace Expr

open Machine

variable {Γ : Surroundings} {m m' : Machine ω} {cause : EvalError}

mutual

theorem eval_stops (e : Expr) {m m' : Machine ω} {cause : EvalError} (hp : e.placeholders = [])
    (hv : ∀ s ∈ e.vars, Γ.captures ∨ m.env.contains s.id = true)
    (h : e.eval m = .error cause m') : Stops Γ.captures m.host cause := by
  cases e with
  | const c => cases h
  | param p => cases hp
  | var s => exact Eval.read_stops (hv s (List.mem_singleton_self s)) h
  | unary op operand =>
    rcases andThen_error.mp h with h | ⟨v, m₁, -, h⟩
    · exact eval_stops operand hp hv h
    · exact Eval.unary_stops _ _ _ _ _ h
  | binary op left right =>
    obtain ⟨hpl, hpr⟩ := List.append_eq_nil_iff.mp hp
    rcases andThen_error.mp h with h | ⟨a, m₁, hleft, h⟩
    · exact eval_stops left hpl (fun s hs => hv s (List.mem_append_left _ hs)) h
    · split at h
      · cases h
      · have hstays := left.eval_keeping.ok hleft
        rcases andThen_error.mp h with h | ⟨b, m₂, -, h⟩
        · rw [← hstays.host]
          exact eval_stops right hpr (fun s hs => (hv s (List.mem_append_right _ hs)).imp_right
            (hstays.env s.id)) h
        · exact Eval.binary_stops _ _ _ _ _ _ h
  | convert operand ty =>
    rcases andThen_error.mp h with h | ⟨v, m₁, -, h⟩
    · exact eval_stops operand hp hv h
    · exact Eval.convert_stops _ _ _ _ _ h
  | intrinsic op args =>
    rcases andThen_error.mp h with h | ⟨vs, m₁, -, h⟩
    · exact evalAll_stops args hp hv h
    · exact Eval.intrinsic_stops _ _ _ _ _ h
  | call function args ty =>
    rcases andThen_error.mp h with h | ⟨vs, m₁, hargs, h⟩
    · exact evalAll_stops args hp hv h
    · rw [← ((evalAll_keeping args).ok hargs).host]
      exact Eval.callHost_stops h
  | construct ty args =>
    rcases andThen_error.mp h with h | ⟨vs, m₁, -, h⟩
    · exact evalAll_stops args hp hv h
    · exact Eval.construct_stops _ _ _ _ _ h
  | list elem items =>
    rcases andThen_error.mp h with h | ⟨vs, m₁, -, h⟩
    · exact evalAll_stops items hp hv h
    · cases h

theorem evalAll_stops (es : List Expr) {m m' : Machine ω} {cause : EvalError}
    (hp : placeholdersAll es = [])
    (hv : ∀ s ∈ varsAll es, Γ.captures ∨ m.env.contains s.id = true)
    (h : evalAll es m = .error cause m') : Stops Γ.captures m.host cause := by
  cases es with
  | nil => cases h
  | cons e es =>
    obtain ⟨hpe, hpes⟩ := List.append_eq_nil_iff.mp hp
    rcases andThen_error.mp h with h | ⟨v, m₁, he, h⟩
    · exact eval_stops e hpe (fun s hs => hv s (List.mem_append_left _ hs)) h
    · have hstays := e.eval_keeping.ok he
      rcases andThen_error.mp h with h | ⟨vs, m₂, -, h⟩
      · rw [← hstays.host]
        exact evalAll_stops es hpes (fun s hs => (hv s (List.mem_append_right _ hs)).imp_right
          (hstays.env s.id)) h
      · cases h

end

end Expr

namespace Node

variable {Γ : Surroundings} {n : Node} {fuel : Nat} {d : Option Descent} {m m' : Machine ω}

/-- A node that finds what it asks for stops by itself for one of these causes only. -/
theorem Checks.stops (h : n.Checks Γ) (hm : Γ.Bound m) (hhandling : Γ.handling → m.handling ≠ [])
    {cause : EvalError} (hend : n.Ends m (.failed cause)) : Stops Γ.captures m.host cause := by
  cases hend with
  | limit => exact .stepLimit _
  | @read m₁ m₂ e _ stays own failed =>
    rw [← stays.host]
    refine e.eval_stops (h.reads e own).placeholders (fun s hs => ?_) failed
    exact ((h.reads e own).vars s hs).imp_right fun hs => stays.env _ (hm _ hs)
  | test v => exact .typeError _
  | intoHandler l => exact .jumpIntoHandler l
  | noException hrethrow hnone => exact absurd hnone (hhandling (h.rethrow hrethrow))

/-- A fitting node, in a machine with what its surroundings promise, stops for one of these causes
only. -/
theorem Fits.failed (h : n.Fits Γ) (hm : Γ.Bound m) (hhandling : Γ.handling → m.handling ≠ [])
    {cause : EvalError} (hfail : n.execWithin fuel d m = .error (.failed cause) m') :
    Stops Γ.captures m.host cause := by
  have hk : ending? (Call.result (execWithin fuel) ⟨n, d, m⟩) = some (.failed cause) := by
    rw [Call.result, hfail]
    rfl
  obtain ⟨fuel', around, caught, c, hvisit, -, hend⟩ := Visits.of_ending hk
  obtain ⟨Γ', hc, hbound, -, hcaptures, hhandling'⟩ := hvisit.fits h hm
  have harrives := hvisit.arrives
  have hnonempty : Γ'.handling → c.machine.handling ≠ [] := by
    intro hΓ' hnil
    rw [harrives.handling] at hnil
    obtain ⟨hcaught, hrest⟩ := List.append_eq_nil_iff.mp hnil
    rcases hhandling' hΓ' with hΓ | hne
    · exact hhandling hΓ hrest
    · exact hne (List.map_eq_nil_iff.mp hcaught)
  have hstops := hc.checks.stops hbound hnonempty hend
  rw [harrives.host] at hstops
  cases hstops with
  | thrown v => exact .thrown v
  | typeError fault => exact .typeError fault
  | host raised => exact .host raised
  | capture s hs => exact .capture s (hcaptures hs)
  | stepLimit limit => exact .stepLimit limit
  | jumpIntoHandler l => exact .jumpIntoHandler l

/-! ## Jumps -/

/-- A jump with which a fitting node ends goes to a label that its surroundings take jumps to. -/
theorem Fits.jump (h : n.Fits Γ) {l : LabelId} {v : Option Value}
    (hjump : n.execWithin fuel d m = .ok (.jump l v) m') : Γ.targets l := by
  induction fuel generalizing Γ n d m m' with
  | zero => cases hjump
  | succ fuel ih =>
    rcases execWithin_ending (ending_eq_jump.mpr ⟨m', hjump⟩) with hend | ⟨entered, c, hc, hk⟩
    · cases hend with
      | jump goto => exact (h.checks.jump _ _ goto).target
      | jumpWith goto => exact (h.checks.jump _ _ goto).target
    · obtain ⟨m₁, hcall⟩ := ending_eq_jump.mp hk
      have hinside := ih (hc.fits h) hcall
      cases n with
      | loop body leave next =>
        obtain ⟨hleave, hnext, -⟩ := loop_jump hjump
        rcases hinside with hl | hl | hl
        · exact hl
        · exact absurd hl hleave
        · exact absurd hl hnext
      | attempt body handlers cleanup => cases entered <;> exact hinside
      | _ => exact hinside

end Node

end StructuredFlow
