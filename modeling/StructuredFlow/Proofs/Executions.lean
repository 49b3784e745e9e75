import StructuredFlow.Proofs.RegionEvents

/-
  Executions of nodes, and what they keep. `Node.Runs` says what a node comes to and by which
  calls; it is what the machine does when it ends with a flow (`Node.runs_of_ok`), and with
  enough fuel and steps the machine does all of it (`Node.Runs.execWithin_ok`).

  A property of machines and one of values are kept together: each node by itself leads from good
  machines and known values to such ones (`Node.Maintains`). Then so does the whole execution, from
  whatever place it starts, and all its calls start from good machines (`Node.Runs.maintained`).
-/

namespace StructuredFlow

variable {ω : Type}

open Exec Outcome

/-- The node comes to a flow, from its start or with a place to be found; the calls are listed in
the order in which they begin, that of the node itself first. -/
def Node.Runs (n : Node) (d : Option Descent) (m : Machine ω) (calls : List (Call ω))
    (flow : Flow) (m' : Machine ω) : Prop :=
  (Turn.tail ⟨n, d, m⟩).Traces calls (.ok flow m')

/-- With enough fuel and steps the machine does the whole execution, in a step for each call. -/
theorem Node.Runs.execWithin_ok {n : Node} {d : Option Descent} {m m' : Machine ω}
    {calls : List (Call ω)} {flow : Flow} (h : n.Runs d m calls flow m') :
    n.execWithin (calls.length + 1) d (m.metered 0 calls.length) =
      .ok flow (m'.metered calls.length calls.length) := by
  cases h with
  | @tail _ calls _ inner =>
    have hends := Turn.ends_iff_traces.mpr ⟨calls, inner, rfl⟩
    exact hends.execWithin_eq

/-- The cursors only go on in an execution. -/
theorem Node.Runs.evolves {n : Node} {d : Option Descent} {m m' : Machine ω}
    {calls : List (Call ω)} {flow : Flow} (h : n.Runs d m calls flow m') :
    m.heap.Evolves m'.heap :=
  ((execWithin_keeping _ n d).ok h.execWithin_ok).heap

/-! ## What is kept -/

/-- The value that the flow carries, if there is one, has the property. -/
def Flow.Carries (Known : Value → Prop) : Flow → Prop
  | .normal v | .throw v => Known v
  | .jump _ v => ∀ w ∈ v, Known w

/-- The value that a jump takes along to its place has the property. -/
def Descent.Carries (Known : Value → Prop) (d : Option Descent) : Prop :=
  ∀ s ∈ d, ∀ w ∈ s.value, Known w

theorem Descent.carries_none (Known : Value → Prop) : Carries Known none :=
  nofun

theorem Flow.Carries.mono {Known Known' : Value → Prop} (h : ∀ v, Known v → Known' v) {flow : Flow}
    (hflow : flow.Carries Known) : flow.Carries Known' := by
  cases flow with
  | normal v => exact h v hflow
  | throw v => exact h v hflow
  | jump l v => exact fun w hw => h w (hflow w hw)

theorem Flow.Carries.descent {Known : Value → Prop} {l : LabelId} {v : Option Value}
    (h : (Flow.jump l v).Carries Known) : Descent.Carries Known (some ⟨l, v⟩) := by
  intro s hs
  cases hs
  exact h

/-- From a good machine the program leads to a good one, with a result of a kind or a known
exception. -/
def Eval.Maintains {α : Type} (Good : Machine ω → Prop) (Known : Heap → Value → Prop)
    (P : Heap → α → Prop) (x : Eval ω α) : Prop :=
  ∀ m, Good m → (∀ a m', x m = .ok a m' → Good m' ∧ P m'.heap a) ∧
    ∀ v m', x m = .error (.thrown v) m' → Good m' ∧ Known m'.heap v

/-- What the node does by itself leads from good machines and known values to such ones. -/
structure Node.Maintains (Good : Machine ω → Prop) (Known : Heap → Value → Prop) (n : Node) : Prop where
  reads : ∀ e ∈ n.reads, e.eval.Maintains Good Known Known
  assign : ∀ target value, n = .assign target value →
    ∀ m v, Good m → Known m.heap v → Good (m.assign target v)
  declare : ∀ locals body, n = .block locals body → ∀ m, Good m → Good (m.declare locals)
  enter : ∀ h ∈ n.handlers, ∀ m v, Good m → Known m.heap v → Good (h.enter v m)

/-- What does not depend on a node: constants are known, and so is what is being handled; and what
is known remains so. -/
structure Regime (Good : Machine ω → Prop) (Known : Heap → Value → Prop) : Prop where
  void : ∀ h, Known h .void
  constant : ∀ h c, Known h (.ofConstant c)
  later : ∀ h h' v, h.Evolves h' → Known h v → Known h' v
  handled : ∀ m, Good m → ∀ v ∈ m.handling.head?, Known m.heap v
  endHandling : ∀ m, Good m → Good m.endHandling

namespace Eval.Maintains

variable {Good : Machine ω → Prop} {Known : Heap → Value → Prop} {α β : Type}
  {P : Heap → α → Prop} {Q : Heap → β → Prop}

theorem andThen {x : Eval ω α} {f : α → Eval ω β} (hx : x.Maintains Good Known P)
    (hf : ∀ a, (f a).Maintains Good Known Q) : (x >>= f).Maintains Good Known Q := by
  intro m hm
  constructor
  · intro b m' h
    obtain ⟨a, m₁, ha, hb⟩ := andThen_ok.mp h
    exact (hf a m₁ ((hx m hm).1 a m₁ ha).1).1 b m' hb
  · intro v m' h
    rcases andThen_error.mp h with h | ⟨a, m₁, ha, hb⟩
    · exact (hx m hm).2 v m' h
    · exact (hf a m₁ ((hx m hm).1 a m₁ ha).1).2 v m' hb

theorem pure {a : α} (ha : ∀ h, P h a) : (pure a : Eval ω α).Maintains Good Known P := by
  refine fun m hm => ⟨fun b m' h => ?_, fun v m' h => ?_⟩
  · cases h
    exact ⟨hm, ha _⟩
  · cases h

/-- The choice of an arm is made of evaluations of the switch, and leads to one of its arms. -/
theorem choice {value : Expr} {arms : List (Arm Node)} {default : Option Node}
    (h : ∀ e ∈ (Node.switch value arms default).reads, e.eval.Maintains Good Known Known) :
    (value.eval >>= fun v => select v arms : Eval ω (Option Node)).Maintains Good Known
      fun _ _ => True := by
  have hselects : ∀ (v : Value) (values : List Expr),
      (∀ e ∈ values, e.eval.Maintains Good Known Known) →
      (select.selects v values : Eval ω Bool).Maintains Good Known fun _ _ => True := by
    intro v values hvalues
    induction values with
    | nil => exact .pure fun _ => trivial
    | cons e values ih =>
      obtain ⟨he, hvalues⟩ := List.forall_mem_cons.mp hvalues
      refine he.andThen fun w => ?_
      split
      · exact .pure fun _ => trivial
      · exact ih hvalues
  obtain ⟨hvalue, harms⟩ := List.forall_mem_cons.mp h
  refine hvalue.andThen fun v => ?_
  clear h
  induction arms with
  | nil => exact .pure fun _ => trivial
  | cons a arms ih =>
    rw [List.flatMap_cons] at harms
    refine (hselects v a.values fun e he => harms e (List.mem_append_left _ he)).andThen
      fun found => ?_
    split
    · exact .pure fun _ => trivial
    · exact ih fun e he => harms e (List.mem_append_right _ he)

end Eval.Maintains

/-! ## Turns -/

/-- What the waiting node goes on with is of a kind, and enters its handlers from good machines
with known values; a flow that is pending carries a known value. -/
def Waiting.Maintains (P : Node → Prop) (Good : Machine ω → Prop) (Known : Heap → Value → Prop)
    (heap : Heap) : Waiting → Prop
  | .row body rest => (∀ n ∈ body, P n) ∧ ∀ n ∈ rest, P n
  | .rounds body _ _ => P body
  | .arms bodies => ∀ n ∈ bodies, P n
  | .guarded body handlers cleanup | .handling body handlers cleanup =>
    P body ∧ (∀ h ∈ handlers, P h.body ∧ ∀ m v, Good m → Known m.heap v → Good (h.enter v m)) ∧
      ∀ n ∈ cleanup, P n
  | .cleaning pending => pending.Carries (Known heap)

/-- A call that starts at a node of a kind, in a good machine, with a known value if any. -/
structure Call.Maintained (P : Node → Prop) (Good : Machine ω → Prop) (Known : Heap → Value → Prop)
    (c : Call ω) : Prop where
  node : P c.node
  descent : Descent.Carries (Known c.machine.heap) c.descent
  machine : Good c.machine

namespace Turn

/-- The turn starts from a good machine and goes on with nodes of a kind; if it is done, then with
a known value in its flow. -/
def Maintained (P : Node → Prop) (Good : Machine ω → Prop) (Known : Heap → Value → Prop) :
    Turn ω → Prop
  | .done (.ok flow m) => Good m ∧ flow.Carries (Known m.heap)
  | .done (.error _ _) => True
  | .tail c => c.Maintained P Good Known
  | .call c w => c.Maintained P Good Known ∧ w.Maintains P Good Known c.machine.heap

variable {P : Node → Prop} {Good : Machine ω → Prop} {Known : Heap → Value → Prop} {m : Machine ω}
  {d : Option Descent}

namespace Maintained

theorem reading {α : Type} {Q : Heap → α → Prop} {x : Eval ω α} {next : α → Machine ω → Turn ω}
    (hx : x.Maintains Good Known Q) (hm : Good m)
    (hnext : ∀ a m', x m = .ok a m' → Good m' → Q m'.heap a → (next a m').Maintained P Good Known) :
    (Turn.reading (x m) next).Maintained P Good Known := by
  unfold Turn.reading
  cases h : x m with
  | ok a m' =>
    obtain ⟨hm', ha⟩ := (hx m hm).1 a m' h
    exact hnext a m' h hm' ha
  | error e m' =>
    cases e with
    | thrown v => exact (hx m hm).2 v m' h
    | _ => exact trivial

theorem row {body rest : List Node} (hbody : ∀ n ∈ body, P n) (hrest : ∀ n ∈ rest, P n)
    (hd : Descent.Carries (Known m.heap) d) {last : Value} (hlast : Known m.heap last)
    (hm : Good m) :
    (Turn.row body rest d last m).Maintained P Good Known := by
  cases rest with
  | nil => exact ⟨hm, hlast⟩
  | cons n rest =>
    obtain ⟨hn, hrest⟩ := List.forall_mem_cons.mp hrest
    exact ⟨⟨hn, hd, hm⟩, hbody, hrest⟩

theorem arm (regime : Regime Good Known) {bodies : List Node} (hbodies : ∀ n ∈ bodies, P n)
    {body : Option Node} (hbody : ∀ n ∈ body, P n) (hd : Descent.Carries (Known m.heap) d) (hm : Good m) :
    (Turn.arm bodies body d m).Maintained P Good Known := by
  cases body with
  | none => exact ⟨hm, regime.void _⟩
  | some n => exact ⟨⟨hbody n rfl, hd, hm⟩, hbodies⟩

section

variable {body : Node} {handlers : List (Handler Node)} {cleanup : Option Node}
  (hparts : (Waiting.guarded body handlers cleanup).Maintains P Good Known m.heap)
include hparts

theorem region (hd : Descent.Carries (Known m.heap) d) (hm : Good m) :
    (Turn.region body handlers cleanup d m).Maintained P Good Known := by
  unfold Turn.region
  split
  next => exact ⟨⟨hparts.1, hd, hm⟩, hparts⟩
  next n hn => exact ⟨hparts.2.2 n (entrance_cleanup hn).1, hd, hm⟩
  next => exact trivial

theorem clean {pending : Flow} (hpending : pending.Carries (Known m.heap)) (hm : Good m) :
    (Turn.clean cleanup pending m).Maintained P Good Known := by
  cases cleanup with
  | none => exact ⟨hm, hpending⟩
  | some n => exact ⟨⟨hparts.2.2 n rfl, Descent.carries_none _, hm⟩, hpending⟩

theorem leaveRegion {flow : Flow} (hflow : flow.Carries (Known m.heap)) (hm : Good m) :
    (Turn.leaveRegion body handlers cleanup flow m).Maintained P Good Known := by
  cases flow with
  | normal v => exact clean hparts hflow hm
  | throw v => exact clean hparts hflow hm
  | jump l v =>
    unfold Turn.leaveRegion
    dsimp only
    split
    · exact region hparts hflow.descent hm
    · exact clean hparts hflow hm

end

end Maintained

end Turn

section

variable {P : Node → Prop} {Good : Machine ω → Prop} {Known : Heap → Value → Prop}

theorem Exec.labelValue_known (regime : Regime Good Known) {h : Heap} {d : Option Descent}
    (hd : Descent.Carries (Known h) d) (target : Label) (default : Option Constant) :
    Known h (labelValue target default d) := by
  unfold labelValue
  split
  next v hv =>
    obtain ⟨s, hs, hv⟩ := Option.bind_eq_some_iff.mp hv
    split at hv
    · exact hd s hs v hv
    · cases hv
  next =>
    cases default with
    | none => exact regime.void h
    | some c => exact regime.constant h c

/-- A node of the kind goes on with its children. -/
theorem Call.Maintained.begin (regime : Regime Good Known)
    (hnode : ∀ n, P n → n.Maintains Good Known ∧ ∀ c ∈ n.children, P c) {c : Call ω}
    (hc : c.Maintained P Good Known) : c.begin.Maintained P Good Known := by
  obtain ⟨n, d, m⟩ := c
  obtain ⟨hn, hd, hm⟩ := hc
  obtain ⟨own, hchildren⟩ := hnode n hn
  dsimp only at hd hm
  cases n with
  | nop => exact ⟨hm, regime.void _⟩
  | eval e =>
    exact .reading (own.reads e (List.mem_singleton_self e)) hm fun _ _ _ hm' hv => ⟨hm', hv⟩
  | assign target value =>
    refine .reading (own.reads value (List.mem_singleton_self _)) hm fun v m' _ hm' hv => ?_
    exact ⟨own.assign target value rfl m' v hm' hv, regime.void _⟩
  | block locals body =>
    refine .row (m := m.declare locals) hchildren (fun n hn => hchildren n ?_) hd (regime.void _)
      (own.declare locals body rfl m hm)
    cases d with
    | none => exact hn
    | some d => exact placeOf_subset _ _ hn
  | branch test yes no =>
    have hyes : P yes := hchildren yes List.mem_cons_self
    have hno : P no := hchildren no (List.mem_cons_of_mem _ (List.mem_singleton_self no))
    have hpart : ∀ b : Bool, P (if b then yes else no) := fun b => by
      cases b
      · exact hno
      · exact hyes
    cases d with
    | some d => exact ⟨hpart _, hd, hm⟩
    | none =>
      refine .reading (own.reads test (List.mem_singleton_self _)) hm fun v m' _ hm' hv => ?_
      cases v with
      | bool holds => exact ⟨hpart _, Descent.carries_none _, hm'⟩
      | _ => exact trivial
  | loop body leave next =>
    have hbody : P body := hchildren body (List.mem_singleton_self body)
    exact ⟨⟨hbody, hd, hm⟩, hbody⟩
  | label target default => exact ⟨hm, labelValue_known regime hd target default⟩
  | goto target value =>
    cases value with
    | none => exact ⟨hm, nofun⟩
    | some e =>
      refine .reading (own.reads e (List.mem_singleton_self e)) hm fun v m' _ hm' hv => ?_
      exact ⟨hm', fun w hw => Option.some.inj hw ▸ hv⟩
  | switch value arms default =>
    cases d with
    | some d =>
      exact .arm regime hchildren (fun n hn => hchildren n (List.mem_of_find?_eq_some hn)) hd hm
    | none =>
      refine .reading (.choice own.reads) hm fun found m' hfound hm' _ => ?_
      refine .arm regime hchildren (fun n hn => hchildren n ?_) (Descent.carries_none _) hm'
      cases found with
      | none => exact List.mem_append_right _ (Option.mem_toList.mpr hn)
      | some body =>
        obtain rfl : body = n := Option.some.inj hn
        obtain ⟨v, m₁, -, hselect⟩ := andThen_ok.mp hfound
        exact List.mem_append_left _ (Node.select_mem hselect)
  | attempt body handlers cleanup =>
    refine .region ⟨hchildren body List.mem_cons_self, fun h hh => ⟨hchildren _ ?_, ?_⟩, ?_⟩ hd hm
    · exact List.mem_cons_of_mem _ (List.mem_append_left _ (List.mem_map_of_mem hh))
    · exact own.enter h hh
    · intro n hn
      refine hchildren n (List.mem_cons_of_mem _ (List.mem_append_right _ ?_))
      exact Option.mem_toList.mpr hn
  | throw e =>
    exact .reading (own.reads e (List.mem_singleton_self e)) hm fun _ _ _ hm' hv => ⟨hm', hv⟩
  | rethrow =>
    unfold Call.begin
    dsimp only
    split
    next v hv => exact ⟨hm, regime.handled m hm v hv⟩
    next => exact trivial

/-- A waiting node goes on with what it waits for. -/
theorem Waiting.Maintains.resume (regime : Regime Good Known) {w : Waiting} {h : Heap}
    (hw : w.Maintains P Good Known h) {flow : Flow} {m : Machine ω} (hh : h.Evolves m.heap)
    (hflow : flow.Carries (Known m.heap)) (hm : Good m) :
    (w.resume (.ok flow m)).Maintained P Good Known := by
  cases w with
  | row body rest =>
    cases flow with
    | normal v => exact .row hw.1 hw.2 (Descent.carries_none _) hflow hm
    | throw v => exact ⟨hm, hflow⟩
    | jump l v =>
      dsimp only [Waiting.resume]
      cases hplace : placeOf l body with
      | nil => exact ⟨hm, hflow⟩
      | cons n rest =>
        refine .row hw.1 (fun n hn => hw.1 n (placeOf_subset l body (hplace ▸ hn))) hflow.descent
          (regime.void _) hm
  | rounds body leave next =>
    cases flow with
    | normal v => exact ⟨⟨hw, Descent.carries_none _, hm⟩, hw⟩
    | throw v => exact ⟨hm, hflow⟩
    | jump l v =>
      dsimp only [Waiting.resume]
      split
      · exact ⟨hm, regime.void _⟩
      · split
        · exact ⟨⟨hw, Descent.carries_none _, hm⟩, hw⟩
        · split
          · exact ⟨⟨hw, hflow.descent, hm⟩, hw⟩
          · exact ⟨hm, hflow⟩
  | arms bodies =>
    cases flow with
    | normal v => exact ⟨hm, hflow⟩
    | throw v => exact ⟨hm, hflow⟩
    | jump l v =>
      dsimp only [Waiting.resume]
      cases hfound : bodies.find? (·.defines l) with
      | none => exact ⟨hm, hflow⟩
      | some n =>
        refine .arm regime hw (fun n' hn' => ?_) hflow.descent hm
        obtain rfl := Option.some.inj hn'
        exact hw n (List.mem_of_find?_eq_some hfound)
  | guarded body handlers cleanup =>
    cases flow with
    | normal v => exact .clean hw hflow hm
    | jump l v => exact .leaveRegion hw hflow hm
    | throw v =>
      dsimp only [Waiting.resume]
      cases hfound : handlers.find? (v.isInstanceOf ·.kind) with
      | none => exact .clean hw hflow hm
      | some h =>
        obtain ⟨hbody, henter⟩ := hw.2.1 h (List.mem_of_find?_eq_some hfound)
        exact ⟨⟨hbody, Descent.carries_none _, henter m v hm hflow⟩, hw⟩
  | handling body handlers cleanup => exact .leaveRegion hw hflow (regime.endHandling m hm)
  | cleaning pending =>
    cases flow with
    | normal v => exact ⟨hm, hw.mono fun _ => regime.later _ _ _ hh⟩
    | jump l v => exact ⟨hm, hflow⟩
    | throw v => exact ⟨hm, hflow⟩

/-- An execution among nodes of the kind ends in a good machine with a known value, and all calls
that it makes start so. -/
theorem Turn.Maintained.of_traces (regime : Regime Good Known)
    (hnode : ∀ n, P n → n.Maintains Good Known ∧ ∀ c ∈ n.children, P c) {t : Turn ω}
    (ht : t.Maintained P Good Known) {calls : List (Call ω)} {flow : Flow} {m : Machine ω}
    (h : t.Traces calls (.ok flow m)) :
    (Good m ∧ flow.Carries (Known m.heap)) ∧ ∀ c ∈ calls, c.Maintained P Good Known := by
  generalize hr : (.ok flow m : Report ω) = r at h
  induction h generalizing flow m with
  | done =>
    subst hr
    exact ⟨ht, nofun⟩
  | tail inner ih =>
    obtain ⟨hend, hcalls⟩ := ih (ht.begin regime hnode) hr
    exact ⟨hend, List.forall_mem_cons.mpr ⟨ht, hcalls⟩⟩
  | @call c w calls r₁ calls' r inner later ihinner ihlater =>
    subst hr
    cases r₁ with
    | error e m₁ =>
      obtain ⟨m₂, hresume⟩ := w.resume_error e m₁
      rw [hresume] at later
      cases later
    | ok flow₁ m₁ =>
      have hevolves := Node.Runs.evolves (.tail inner)
      obtain ⟨⟨hm₁, hflow₁⟩, hcalls⟩ := ihinner (ht.1.begin regime hnode) rfl
      obtain ⟨hend, hcalls'⟩ := ihlater (ht.2.resume regime hevolves hflow₁ hm₁) rfl
      refine ⟨hend, List.forall_mem_cons.mpr ⟨ht.1, fun c hc => ?_⟩⟩
      exact (List.mem_append.mp hc).elim (hcalls c) (hcalls' c)

/-- The nodes of a tree that maintain the property each by itself maintain it together. -/
theorem Node.Runs.maintained {n : Node} {d : Option Descent} {m m' : Machine ω}
    {calls : List (Call ω)} {flow : Flow} (h : n.Runs d m calls flow m')
    (regime : Regime Good Known) (hnodes : ∀ c ∈ n.subnodes, c.Maintains Good Known)
    (hd : Descent.Carries (Known m.heap) d) (hm : Good m) :
    (Good m' ∧ flow.Carries (Known m'.heap)) ∧
      ∀ c ∈ calls, c.Maintained (· ∈ n.subnodes) Good Known := by
  refine Turn.Maintained.of_traces regime (fun c hc => ⟨hnodes c hc, fun c' hc' => ?_⟩)
    (t := .tail ⟨n, d, m⟩) ⟨self_mem_subnodes n, hd, hm⟩ h
  exact mem_subnodes_trans hc (mem_subnodes_of_mem_children hc' (self_mem_subnodes c'))

end

/-! ## The machine with its limits -/

/-- The meter has the given state. -/
def Machine.Metered (steps limit : Nat) (m : Machine ω) : Prop :=
  m.metered steps limit = m

theorem Machine.Metered.evaluation {steps limit : Nat} (e : Expr) :
    (e.eval : Eval ω Value).Maintains (Machine.Metered steps limit) (fun _ _ => True)
      fun _ _ => True := by
  intro m hm
  have hblind := e.eval_blind m steps limit
  rw [hm] at hblind
  constructor
  · intro v m' h
    rw [h] at hblind
    exact ⟨(EStateM.Result.ok.inj hblind).2.symm, trivial⟩
  · intro v m' h
    rw [h] at hblind
    exact ⟨(EStateM.Result.error.inj hblind).2.symm, trivial⟩

/-- No node touches the meter by itself. -/
theorem Machine.Metered.node {steps limit : Nat} (n : Node) :
    n.Maintains (Metered (ω := ω) steps limit) fun _ _ => True where
  reads e _ := Metered.evaluation e
  assign target _ _ _ v hm _ := congrArg (Machine.assign · target v) hm
  declare locals _ _ _ hm := congrArg (Machine.declare · locals) hm
  enter h _ _ v hm _ := by
    unfold Handler.enter
    split
    next s _ => exact congrArg (fun m => (Machine.assign m s v).beginHandling v) hm
    next => exact congrArg (Machine.beginHandling · v) hm

theorem Machine.Metered.regime {steps limit : Nat} :
    Regime (Metered (ω := ω) steps limit) fun _ _ => True where
  void _ := trivial
  constant _ _ := trivial
  later _ _ _ _ hv := hv
  handled _ _ _ _ := trivial
  endHandling _ hm := congrArg Machine.endHandling hm

namespace Node

variable {n : Node} {d : Option Descent} {m m' : Machine ω} {calls : List (Call ω)} {flow : Flow}

/-- The steps of an execution are not counted in its own terms. -/
theorem Runs.meter_eq (h : n.Runs d m calls flow m') :
    m'.metered m.steps m.stepLimit = m' :=
  (h.maintained Machine.Metered.regime (fun c _ => Machine.Metered.node c)
    (fun _ _ _ _ => trivial) rfl).1.1

/-- What the machine does when it ends with a flow, up to the steps that it counts. -/
theorem runs_of_ok {fuel : Nat} (h : n.execWithin fuel d m = .ok flow m') :
    ∃ calls, n.Runs d m calls flow (m'.metered m.steps m.stepLimit) := by
  obtain ⟨calls, m₁, htraces, hm'⟩ := Turn.Traces.of_result (c := ⟨n, d, m⟩) h
  have hruns : n.Runs d m calls flow m₁ := htraces
  refine ⟨calls, ?_⟩
  rw [hm', Machine.metered_metered, hruns.meter_eq]
  exact hruns

end Node

end StructuredFlow
