import StructuredFlow.Proofs.HeldIterators

/-
  Iterators in executions. Code that does not mention a variable leaves the iterator alone that only
  this variable holds (`Node.Overlooks.maintains`). And a machine holds only iterators that have been
  made (`Machine.Sound`): a run starts so and stays so (`Artifact.Traces.sound`). So a new iterator is
  hidden by the variable that it is assigned to.
-/

namespace StructuredFlow

variable {ω : Type}

/-! ## Execution -/

variable {holds : ω → CursorId → Prop}

/-- The variable alone holds the iterator, whose cursor stands as it does. -/
structure Machine.Walking (holds : ω → CursorId → Prop) (id : CursorId) (x : SymbolId) (c : Cursor)
    (m : Machine ω) : Prop extends m.Hides holds id (some x) where
  has : m.Has x (.iterator id)
  made : id < m.heap.cursors.size
  cursor : m.heap.cursor id = c

/-- The node by itself does without the variable. -/
structure Node.Overlooks (x : SymbolId) (n : Node) : Prop where
  mentions : ¬n.Mentions x
  binds : ∀ y ∈ n.binds, y.id ≠ x

section

variable {id : CursorId} {x : SymbolId} {c : Cursor}

namespace Machine.Walking

variable {m : Machine ω}

theorem assign (hm : m.Walking holds id x c) {s : Symbol} (hs : s.id ≠ x) {v : Value}
    (hv : v.Lacks id) : (m.assign s v).Walking holds id x c :=
  { hm.toHides.assign hv with
    has := hm.has.assign_of_ne hs v
    made := hm.made
    cursor := hm.cursor }

theorem declare (hm : m.Walking holds id x c) (locals : List Symbol) :
    (m.declare locals).Walking holds id x c :=
  { hm.toHides.declare locals with
    has := hm.has.declare locals
    made := hm.made
    cursor := hm.cursor }

theorem evaluation {e : Expr} (he : ∀ s ∈ e.vars, s.id ≠ x) :
    (e.eval : Eval ω Value).Maintains (Machine.Walking holds id x c) (fun _ => Value.Lacks id)
      fun _ => Value.Lacks id := by
  have hides : (e.eval : Eval ω Value).Hides holds id (some x) (Value.Lacks id) :=
    e.eval_hides fun s hs hid => he s hs (Option.some.inj hid).symm
  intro m hm
  have hmakes : ∀ h, ¬m.heap.Makes id h := fun h hmade => absurd hmade.1 (Nat.not_le.mpr hm.made)
  have later : ∀ {m'}, m.Evaluated m' → m.Hidden holds id (some x) m' → m'.Walking holds id x c :=
    fun hquiet hidden =>
      { hidden.hides with
        has := hm.has.of_env hquiet.env
        made := hm.made.trans_le hquiet.heap.size
        cursor := hidden.cursor.trans hm.cursor }
  constructor
  · intro v m' hv
    obtain ⟨hidden, hlacks⟩ := hides.ok m v m' hm.toHides hv (hmakes _)
    exact ⟨later (hides.quiet.ok hv) hidden, hlacks⟩
  · intro v m' hv
    obtain ⟨hidden, hlacks⟩ := hides.error m v m' hm.toHides hv (hmakes _)
    exact ⟨later (hides.quiet.error hv) hidden, hlacks⟩

theorem regime : Regime (Machine.Walking holds id x c) fun _ => Value.Lacks id where
  void _ := List.not_mem_nil
  constant _ := Value.lacks_ofConstant
  later _ _ _ _ hv := hv
  handled _ hm v hv := hm.handling v (List.mem_of_mem_head? hv)
  endHandling _ hm := { hm with handling := hm.toHides.endHandling.handling }

end Machine.Walking

/-- Code that does without a variable leaves the iterator alone that the variable hides. -/
theorem Node.Overlooks.maintains {n : Node} (h : n.Overlooks x) :
    n.Maintains (Machine.Walking holds id x c) fun _ => Value.Lacks id where
  reads e he := Machine.Walking.evaluation fun s hs hid => h.mentions (.inl ⟨e, he, s, hs, hid⟩)
  assign target value hn m v hm hv :=
    hm.assign (fun hid => h.mentions (.inr ⟨target, value, hn, hid⟩)) hv
  declare locals _ _ m hm := hm.declare locals
  enter k hk m v hm hv := by
    have handling : ∀ {m : Machine ω}, m.Walking holds id x c →
        (m.beginHandling v).Walking holds id x c := fun hm =>
      { hm with handling := (hm.toHides.beginHandling hv).handling }
    unfold Handler.enter
    cases hbinding : k.binding with
    | none => exact handling hm
    | some s => exact handling (hm.assign (h.binds s (mem_binds_of_binding hk hbinding)) hv)

end

/-! ## Iterators that there are -/

/-- The iterators in the value are in the heap. -/
def Heap.Covers (h : Heap) (v : Value) : Prop :=
  ∀ id, h.cursors.size ≤ id → v.Lacks id

/-- All iterators that are held anywhere are in the heap, and the host is honest about its own. -/
def Machine.Sound (holds : ω → CursorId → Prop) (m : Machine ω) : Prop :=
  ∀ id, m.heap.cursors.size ≤ id → m.Hides holds id none

namespace Machine.Sound

theorem new {host : Host ω} {world : ω} (hhost : host.Honest holds) (hworld : ∀ id, ¬holds world id)
    (stepLimit : Nat) : (Machine.new host world stepLimit).Sound holds := by
  refine fun id _ => ⟨hhost, hworld id, List.forall_mem_nil _, fun id' v hv => ?_, nofun⟩
  rw [Heap.cursor_of_le (Nat.zero_le id')] at hv
  cases hv

theorem assign {m : Machine ω} (hm : m.Sound holds) (s : Symbol) {v : Value}
    (hv : m.heap.Covers v) : (m.assign s v).Sound holds :=
  fun id hid => (hm id hid).assign (hv id hid)

/-- A run of a program starts from a sound machine, if its arguments are from there. -/
theorem prepare {m : Machine ω} (hm : m.Sound holds) (params : List Symbol) {args : List Value}
    (hargs : ∀ v ∈ args, m.heap.Covers v) : (m.prepare params args).Sound holds := by
  have hrestart : m.restart.Sound holds := fun id hid =>
    { hm id hid with handling := List.forall_mem_nil _, env := nofun }
  have hassigned : ∀ (entries : List (Symbol × Value)) (m : Machine ω), m.Sound holds →
      (∀ p ∈ entries, m.heap.Covers p.2) →
      (entries.foldl (fun m p => m.assign p.1 p.2) m).Sound holds := by
    intro entries
    induction entries with
    | nil => exact fun m hm _ => hm
    | cons p entries ih =>
      intro m hm hentries
      obtain ⟨hp, hentries⟩ := List.forall_mem_cons.mp hentries
      exact ih (m.assign p.1 p.2) (hm.assign p.1 hp) hentries
  exact hassigned _ _ hrestart fun p hp => hargs p.2 (List.of_mem_zip hp).2

theorem evaluation (e : Expr) :
    (e.eval : Eval ω Value).Maintains (Sound holds) Heap.Covers Heap.Covers := by
  have hides : ∀ id, (e.eval : Eval ω Value).Hides holds id none (Value.Lacks id) :=
    fun id => e.eval_hides fun _ _ => nofun
  intro m hm
  constructor
  · intro v m' hv
    have hsize := ((hides 0).quiet.ok hv).heap.size
    have later id (hid : m'.heap.cursors.size ≤ id) :=
      (hides id).ok m v m' (hm id (hsize.trans hid)) hv fun h => absurd h.2 (Nat.not_lt.mpr hid)
    exact ⟨fun id hid => (later id hid).1.hides, fun id hid => (later id hid).2⟩
  · intro v m' hv
    have hsize := ((hides 0).quiet.error hv).heap.size
    have later id (hid : m'.heap.cursors.size ≤ id) :=
      (hides id).error m v m' (hm id (hsize.trans hid)) hv fun h => absurd h.2 (Nat.not_lt.mpr hid)
    exact ⟨fun id hid => (later id hid).1.hides, fun id hid => (later id hid).2⟩

theorem regime : Regime (Sound holds) Heap.Covers where
  void _ _ _ := List.not_mem_nil
  constant _ c _ _ := Value.lacks_ofConstant c
  later _ _ _ hh hv id hid := hv id (hh.size.trans hid)
  handled _ hm v hv id hid := (hm id hid).handling v (List.mem_of_mem_head? hv)
  endHandling _ hm id hid := (hm id hid).endHandling

theorem node (n : Node) : n.Maintains (Sound holds) Heap.Covers where
  reads e _ := evaluation e
  assign target value _ m v hm hv := hm.assign target hv
  declare locals _ _ m hm id hid := (hm id hid).declare locals
  enter k _ m v hm hv id hid := by
    rw [k.heap_enter v m] at hid
    exact (hm id hid).enter k (hv id hid)

end Machine.Sound

/-- An execution from a sound machine makes all its calls in sound machines, and ends in one. -/
theorem Node.Runs.sound {n : Node} {d : Option Descent} {m m' : Machine ω}
    {calls : List (Call ω)} {flow : Flow} (h : n.Runs d m calls flow m')
    (hd : Descent.Carries m.heap.Covers d) (hm : m.Sound holds) :
    m'.Sound holds ∧ flow.Carries m'.heap.Covers ∧ ∀ c ∈ calls, c.machine.Sound holds := by
  obtain ⟨⟨hm', hflow⟩, hcalls⟩ :=
    h.maintained Machine.Sound.regime (fun c _ => Machine.Sound.node c) hd hm
  exact ⟨hm', hflow, fun c hc => (hcalls c hc).machine⟩

/-- What a run executes it executes in sound machines. -/
theorem Artifact.Traces.sound {a : Artifact} {args : List Value} {m m' : Machine ω}
    {calls : List (Call ω)} {flow : Flow} (h : a.Traces args m calls (.ok flow m'))
    (hm : m.Sound holds) (hargs : ∀ v ∈ args, m.heap.Covers v) :
    ∀ c ∈ calls, c.machine.Sound holds :=
  (Node.Runs.sound h.2 (Descent.carries_none _) (hm.prepare a.params hargs)).2.2

end StructuredFlow
