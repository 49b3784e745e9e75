import StructuredFlow.Proofs.Conformance
import StructuredFlow.Proofs.Iterations
import StructuredFlow.Proofs.LoopsAround

/-
  The meaning of `for each`. The collection is evaluated once; then its elements are gone through in
  order (`Iterates`), and if the collection is a list its iterator is disposed of at the end, however
  the loop is left (`ForEach`). The program has more to do for this: it makes an iterator, assigns it
  to a variable without a name, walks the iterator in a loop, and disposes of it in a guarded
  region. Without captures nothing else gets hold of the iterator, so an execution of all this is
  what `for each` means (`Builder.Reachable.forEach_law`).
-/

namespace StructuredFlow

variable {ω : Type}

open Exec Outcome

/-! ## The meaning -/

/-- The machine where the variable has been set to a new iterator of the items. -/
def Machine.started (m : Machine ω) (x : Symbol) (items : List Value) (disposable : Bool) :
    Machine ω :=
  let (v, heap) := m.heap.newIterator (Cursor.ofItems items disposable)
  { m with heap }.assign x v

/-- A loop over a collection, from a machine in which the variables around it are declared. If the
collection is a list, the new iterator is disposed of after the last round. -/
inductive ForEach (iterator : Symbol) (collection : Expr) (l : Loop) (item : Symbol) (element : Ty)
    (locals : List Symbol) (body : List Node) (m : Machine ω) : Flow → Machine ω → Prop
  | raised {v m₁} (value : collection.eval m = .error (.thrown v) m₁) :
      ForEach iterator collection l item element locals body m (.throw v) m₁
  | list {items m₁ flow m₂} (value : collection.eval m = .ok (.list items) m₁)
      (loop : Iterates m₁.heap.cursors.size l item element locals body items
        (m₁.started iterator items true) flow m₂) :
      ForEach iterator collection l item element locals body m flow
        (m₂.release (.iterator m₁.heap.cursors.size))
  | range {start stop items m₁ flow m₂} (value : collection.eval m = .ok (.range start stop) m₁)
      (elements : Value.Counts stop start items)
      (loop : Iterates m₁.heap.cursors.size l item element locals body items
        (m₁.started iterator items false) flow m₂) :
      ForEach iterator collection l item element locals body m flow m₂

/-- The loop over a collection in a program, where the first statement of the body takes the element
that the iterator stands at. -/
def Node.forEach (iterator : Symbol) (collection : Expr) (l : Loop) (item : Symbol) (element : Ty)
    (locals : List Symbol) (body : List Node) : Node :=
  ofIteration iterator collection (ofLoop l (block locals
    (assign item (Builder.currentOf iterator element item.ty) :: body)))

/-! ## The iterator -/

section

variable {holds : ω → CursorId → Prop} {collection : Expr} {m m' : Machine ω} {w : Value}

/-- The collection of which an iterator is made is a list or a range, and the iterator is to show
its elements. -/
theorem Expr.eval_getIterator (h : (intrinsic .getIterator [collection]).eval m = .ok w m') :
    (∃ items m₁, collection.eval m = .ok (.list items) m₁ ∧
        w = .iterator m₁.heap.cursors.size ∧ ∀ x, m'.assign x w = m₁.started x items true) ∨
      ∃ start stop m₁, collection.eval m = .ok (.range start stop) m₁ ∧
        ∀ x, m'.assign x w = m₁.started x (Value.rangeItems start stop) false := by
  obtain ⟨vs, m₁, hvs, hw⟩ := andThen_ok.mp h
  obtain ⟨v, m₂, hv, hrest⟩ := andThen_ok.mp hvs
  cases hrest
  cases v with
  | list items =>
    cases hw
    exact .inl ⟨items, m₁, hv, rfl, fun _ => rfl⟩
  | range start stop =>
    cases hw
    exact .inr ⟨start, stop, m₁, hv, fun _ => rfl⟩
  | _ => cases hw

theorem Expr.eval_getIterator_error {v : Value}
    (h : (intrinsic .getIterator [collection]).eval m = .error (.thrown v) m') :
    collection.eval m = .error (.thrown v) m' := by
  rcases andThen_error.mp h with h | ⟨vs, m₁, hvs, hw⟩
  · rcases andThen_error.mp h with h | ⟨v, m₁, -, hrest⟩
    · exact h
    · cases hrest
  · obtain ⟨v, m₂, -, hrest⟩ := andThen_ok.mp hvs
    cases hrest
    cases v <;> cases hw

/-- A new iterator is hidden by the variable that it is assigned to. -/
theorem Machine.Sound.started (hm : m.Sound holds) (x : Symbol) {items : List Value}
    (hitems : ∀ v ∈ items, m.heap.Covers v) (disposable : Bool) :
    (m.started x items disposable).Walking holds m.heap.cursors.size x.id
      (Cursor.ofItems items disposable) := by
  have hides := (hm _ (le_refl m.heap.cursors.size)).newIterator
    (c := Cursor.ofItems items disposable) fun v hv => hitems v hv _ le_rfl
  exact
    { hides.assign_owner x (.iterator m.heap.cursors.size) with
      has := Machine.Has.assign x _ _
      made := by simp [Machine.started, Machine.assign, Heap.newIterator]
      cursor := Heap.cursor_newIterator _ _ }

end

/-! ## The program's iteration -/

namespace Node

/-- A loop does not end with a jump to a place in it. -/
theorem loop_leaves {n : Node} {l : Loop} {d : Option Descent} {m m' : Machine ω}
    {calls : List (Call ω)} {target : LabelId} {u : Option Value}
    (h : (ofLoop l n).Runs d m calls (.jump target u) m') : (ofLoop l n).defines target = false :=
  (loop_jump h.execWithin_ok).2.2

/-- Without handlers, a region around a loop executes the loop once. -/
theorem ofLoop_pass {n : Node} {l : Loop} {d : Option Descent} {m m' : Machine ω}
    {calls : List (Call ω)} {flow : Flow} (h : Passes (ofLoop l n) [] d m calls flow m') :
    (ofLoop l n).Runs d m calls flow m' := by
  cases h with
  | last pass => exact pass.runs
  | again pass inside => exact absurd (inside.symm.trans (loop_leaves pass.runs)) nofun

section

variable {holds : ω → CursorId → Prop} {iterator item : Symbol} {collection : Expr} {l : Loop}
  {element : Ty} {locals : List Symbol} {body : List Node} {m m' : Machine ω}
  {calls : List (Call ω)} {flow : Flow}

/-- What an iteration is made of leaves its iterator as it is. -/
theorem loop_avoids {value : Expr} (hitem : item ∈ locals)
    (hlocals : ∀ x ∈ locals, x.id ≠ iterator.id)
    (hbody : ∀ n ∈ body, ∀ c ∈ n.subnodes, c.Overlooks iterator.id) :
    ∀ n ∈ (ofLoop l (block locals (assign item value :: body))).subnodes,
      n.Avoids iterator.id := by
  intro n hn
  rcases mem_subnodes_iff.mp hn with rfl | ⟨c, hc, hn⟩
  · exact ⟨nofun, nofun⟩
  obtain rfl := List.mem_singleton.mp hc
  rcases mem_subnodes_iff.mp hn with rfl | ⟨c, hc, hn⟩
  · exact ⟨nofun, nofun⟩
  rcases List.mem_cons.mp hc with rfl | hc
  · rcases mem_subnodes_iff.mp hn with rfl | ⟨c, hc, hn⟩
    · exact ⟨nofun, hlocals⟩
    rcases List.mem_cons.mp hc with rfl | hc
    · obtain rfl := List.mem_singleton.mp hn
      refine ⟨fun target _ heq => ?_, nofun⟩
      cases heq
      exact hlocals item hitem
    · obtain ⟨hmentions, hbinds⟩ := hbody c hc n hn
      exact ⟨fun target value heq hid => hmentions (.inr ⟨target, value, heq, hid⟩), hbinds⟩
  · obtain rfl := List.mem_singleton.mp hc
    obtain rfl := List.mem_singleton.mp hn
    exact ⟨nofun, nofun⟩

/-- An iteration from a sound machine is the loop over the collection that it is meant to be, if its
iterator is of the type that fits the collection, and nothing else in the iteration mentions it. -/
theorem forEach_runs
    (h : (forEach iterator collection l item element locals body).Runs none m calls flow m')
    (htype : collection.type.iteratorType? = some iterator.ty)
    (hsteps : l.condition = .intrinsic .moveNext [.var iterator]) (hitem : item ∈ locals)
    (hlocals : ∀ x ∈ locals, x.id ≠ iterator.id)
    (hbody : ∀ n ∈ body, ∀ c ∈ n.subnodes, c.Overlooks iterator.id) (hm : m.Sound holds)
    (hvalue : ∀ v m₁, collection.eval (m.declare [iterator]) = .ok v m₁ →
      m₁.heap.Conforms collection.type v) :
    ForEach iterator collection l item element locals body (m.declare [iterator]) flow m' := by
  have hdeclared : (m.declare [iterator]).Sound holds := fun id hid => (hm id hid).declare [iterator]
  have hcollection := Machine.Sound.evaluation collection _ hdeclared
  have loop : ∀ {m₁ m₂ : Machine ω} {items disposable calls flow}, m₁.Sound holds →
      (∀ v ∈ items, m₁.heap.Covers v) →
      (ofLoop l (block locals
        (assign item (Builder.currentOf iterator element item.ty) :: body))).Runs none
          (m₁.started iterator items disposable) calls flow m₂ →
      Iterates m₁.heap.cursors.size l item element locals body items
        (m₁.started iterator items disposable) flow m₂ := fun hm₁ hitems h =>
    loop_iterates hsteps (hlocals item hitem) hbody (hm₁.started iterator hitems _) h
  cases hcollectionType : collection.type with
  | list elem =>
    rw [hcollectionType] at htype hvalue
    have hdisposable : iterator.ty.isDisposable = true :=
      congrArg (·.isDisposable) (Option.some.inj htype).symm
    unfold forEach ofIteration at h
    dsimp only at h
    rw [if_pos hdisposable] at h
    rcases withCleanup_runs (loop_avoids hitem hlocals hbody) h with
      ⟨v, hv, rfl⟩ | ⟨w, m₂, calls', m₃, hw, passes, -, rfl⟩
    · exact .raised (Expr.eval_getIterator_error hv)
    · rcases Expr.eval_getIterator hw with ⟨items, m₁, hv, rfl, hstarted⟩ | ⟨start, stop, m₁, hv, -⟩
      · obtain ⟨hm₁, hcovers⟩ := hcollection.1 _ _ hv
        rw [hstarted] at passes
        refine .list hv (loop hm₁ (fun v hv id hid => ?_) (ofLoop_pass passes))
        exact Value.lacks_list.mp (hcovers id hid) v hv
      · rcases hvalue _ _ hv with h | ⟨items, h, -⟩ <;> cases h
  | range =>
    rw [hcollectionType] at htype hvalue
    have hdisposable : iterator.ty.isDisposable = false :=
      congrArg (·.isDisposable) (Option.some.inj htype).symm
    unfold forEach ofIteration at h
    dsimp only at h
    rw [hdisposable, if_neg Bool.false_ne_true] at h
    rcases assigned_runs h fun _ _ _ _ _ _ hjump => loop_leaves hjump with
      ⟨v, hv, rfl⟩ | ⟨w, m₂, calls', hw, run⟩
    · exact .raised (Expr.eval_getIterator_error hv)
    · rcases Expr.eval_getIterator hw with ⟨items, m₁, hv, -⟩ | ⟨start, stop, m₁, hv, hstarted⟩
      · rcases hvalue _ _ hv with h | ⟨start, stop, h⟩ <;> cases h
      · obtain ⟨hm₁, -⟩ := hcollection.1 _ _ hv
        rw [hstarted] at run
        refine .range hv (Value.counts_rangeItems start stop) (loop hm₁ (fun v hv id _ => ?_) run)
        obtain ⟨k, -, rfl⟩ := List.mem_map.mp hv
        exact List.not_mem_nil
  | _ =>
    rw [hcollectionType] at htype
    cases htype

end

end Node

/-- A block with a local stays a block. -/
theorem Block.collapse_of_mem {B : Block} {x : Symbol} (hx : x ∈ B.locals) :
    B.collapse = .block B.locals B.nodes := by
  obtain ⟨locals, nodes⟩ := B
  cases locals with
  | nil => exact absurd hx List.not_mem_nil
  | cons y locals => rfl

/-- The body of an iteration does not hold the iteration. -/
theorem Node.sizeOf_lt_ofIteration (iterator : Symbol) (collection : Expr) (l : Loop) (n : Node) :
    sizeOf n < sizeOf (ofIteration iterator collection (ofLoop l n)) := by
  unfold ofIteration withCleanup ofLoop
  dsimp only
  split
  · simp only [block.sizeOf_spec, List.cons.sizeOf_spec, attempt.sizeOf_spec, loop.sizeOf_spec,
      branch.sizeOf_spec]
    omega
  · simp only [block.sizeOf_spec, List.cons.sizeOf_spec, loop.sizeOf_spec, branch.sizeOf_spec]
    omega

namespace Builder

variable {b : Builder} {a : Artifact}

/-- An iteration of a program without captures hides its iterator: it is none of the locals of the
body, and nothing in the body but the first statement speaks of it. -/
theorem Reachable.iteration_overlooks (hb : b.Reachable) (hcaptures : b.options.allowCaptures = false)
    (ha : b.assemble = .ok a) {iterator item : Symbol} {collection : Expr} {l : Loop}
    {locals : List Symbol} {element : Ty} {body : List Node}
    (hwalk : Node.forEach iterator collection l item element locals body ∈ a.body.subnodes)
    (hname : iterator.name = none) (hsteps : l.condition = .intrinsic .moveNext [.var iterator])
    (hitem : item ∈ locals) :
    (∀ x ∈ locals, x.id ≠ iterator.id) ∧
      ∀ n ∈ body, ∀ c ∈ n.subnodes, c.Overlooks iterator.id := by
  let B : Block := ⟨locals, .assign item (currentOf iterator element item.ty) :: body⟩
  have hcollapse : B.collapse = .block B.locals B.nodes := Block.collapse_of_mem hitem
  have hsecludes : a.body.Secludes iterator collection l B :=
    hb.secluded hcaptures ha (hcollapse ▸ hwalk) hname hsteps rfl
  obtain ⟨item', element', rest, hnodes, hrest⟩ := hsecludes.fetches
  obtain ⟨-, rfl⟩ := List.cons.inj hnodes
  have hbinds : iterator ∈ (Node.forEach iterator collection l item element locals body).binds := by
    obtain ⟨statements, hblock⟩ :=
      Node.ofIteration_eq_block iterator collection (Node.ofLoop l (.block B.locals B.nodes))
    rw [Node.forEach, hblock]
    exact List.mem_singleton_self iterator
  have hinside : Node.block locals B.nodes ∈
      (Node.forEach iterator collection l item element locals body).subnodes :=
    Node.mem_subnodes_ofIteration (Node.mem_subnodes_ofLoop (Node.self_mem_subnodes _))
  -- Whatever binds the iterator is the iteration itself, which is not in its body.
  have honly : ∀ n ∈ (Node.block locals B.nodes).subnodes, ∀ x ∈ n.binds, x.id ≠ iterator.id := by
    intro n hn x hx hid
    have hsize := Node.sizeOf_le_of_mem_subnodes hn
    rw [Node.binder_unique (hb.built.body_binders_nodup ha)
      (Node.mem_subnodes_trans hwalk (Node.mem_subnodes_trans hinside hn)) hwalk hx hbinds hid]
      at hsize
    exact absurd (Node.sizeOf_lt_ofIteration iterator collection l _) (Nat.not_lt.mpr hsize)
  refine ⟨honly _ (Node.self_mem_subnodes _), fun n hn c hc => ⟨hrest n hn c hc, honly c ?_⟩⟩
  exact Node.mem_subnodes_of_mem_children (List.mem_cons_of_mem _ hn) hc

/-- The law of `for each`. Where the statement of a scope is a loop over a collection, the program
has an iteration, and every execution of it that begins at its start, in a sound machine, and ends
with a flow is the loop over the collection that is meant. -/
theorem Reachable.forEach_law (hb : b.Reachable) (hcaptures : b.options.allowCaptures = false)
    (ha : b.assemble = .ok a) {outer : Chain} {s : Scope} (hs : b.top.Within outer s) {i : Nat}
    {iterator : Symbol} {collection : Expr} {l : Loop} {c : Scope}
    (hi : s.stmts[i]? = some (.iteration iterator collection l c)) :
    ∃ (item : Symbol) (element : Ty) (locals : List Symbol) (body : List Node),
      b.Translates a s i (.forEach iterator collection l item element locals body) ∧
      item ∈ locals ∧ collection.type.iteratorType? = some iterator.ty ∧
      iterator.ty.elementType? = some element ∧
      c.frame.loopLabels? = some (l.leave, l.next) ∧
      ∀ (holds : ω → CursorId → Prop) (m m' : Machine ω) (fuel : Nat) (flow : Flow),
        m.Sound holds →
        (∀ v m₁, collection.eval (m.declare [iterator]) = .ok v m₁ →
          m₁.heap.Conforms collection.type v) →
        (Node.forEach iterator collection l item element locals body).execWithin fuel none m =
          .ok flow m' →
        ForEach iterator collection l item element locals body (m.declare [iterator]) flow
          (m'.metered m.steps m.stepLimit) := by
  obtain ⟨hname, htype, hsteps, B, item, element, body, htranslates, hnodes, hitem, helement⟩ :=
    hb.built.iteration_translates ha hs hi
  rw [Block.collapse_of_mem hitem, hnodes] at htranslates
  have hwalk : Node.forEach iterator collection l item element B.locals body ∈ a.body.subnodes := by
    obtain ⟨-, -, -, hmem⟩ := htranslates
    exact hmem
  obtain ⟨hlocals, hbody⟩ := hb.iteration_overlooks hcaptures ha hwalk hname hsteps hitem
  refine ⟨item, element, B.locals, body, htranslates, hitem, htype, helement, ?_, ?_⟩
  · have hjumps := hb.built.jumpsInmost.of_within hs
    exact (hjumps.stmt (List.mem_of_getElem? hi)).roles c (List.mem_singleton_self c)
  · intro holds m m' fuel flow hm hvalue h
    obtain ⟨calls, hruns⟩ := Node.runs_of_ok h
    exact Node.forEach_runs hruns htype hsteps hitem hlocals hbody hm hvalue

/-- A loop over a list of one number, which is widened for the variable. -/
theorem forEach_law_in_run :
    let xs : Symbol := ⟨0, "xs", .list .int⟩
    let iterator : Symbol := ⟨1, none, .iterator .int true⟩
    let item : Symbol := ⟨2, "x", .long⟩
    let l : Loop := ⟨.intrinsic .moveNext [.var iterator], .internal 2, .internal 1⟩
    ∃ (b : Builder) (a : Artifact) (n : Node) (m m' : Machine Unit),
      b.Reachable ∧ b.options.allowCaptures = false ∧ b.assemble = .ok a ∧ n ∈ a.body.subnodes ∧
      m.env.get? 0 = some (.list [.int 7]) ∧ n.execWithin 13 none m = .ok (.normal .void) m' ∧
      m'.env.get? 2 = some (.long 7) ∧ m'.disposeLog = #["iterator"] ∧
      ForEach iterator (.var xs) l item .int [item] [.eval (.var item)] (m.declare [iterator])
        (.normal .void) (m'.metered m.steps m.stepLimit) := by
  intro xs iterator item l
  let top (stmts : List (Stmt Scope)) : Scope := ⟨⟨0, .plain, [], [xs]⟩,
    [.iteration iterator (.var xs) l ⟨⟨1, .loopBody l.leave l.next, [item], []⟩,
      .node (.assign item (.convert (.intrinsic .current [.var iterator]) .long)) :: stmts⟩]⟩
  have hcreate : Builder.create ⟨"f", false⟩ [⟨"xs", .list .int⟩] .void =
      .ok ⟨⟨"f", false⟩, [xs], .internal 0, [], ⟨⟨0, .plain, [], [xs]⟩, []⟩, 1, 1, 1⟩ := rfl
  have hloop : Reachable ⟨⟨"f", false⟩, [xs], .internal 0, [], top [], 2, 3, 4⟩ :=
    (Reachable.create hcreate).opening 0 (.forEach "x" .long ⟨[], .var xs⟩)
  have hread : Reachable
      ⟨⟨"f", false⟩, [xs], .internal 0, [], top [.node (.eval (.var item))], 2, 3, 4⟩ :=
    hloop.statement 1 (.act ⟨[⟨"x", .long⟩], .param ⟨"x", .long⟩⟩)
  obtain ⟨a, ha⟩ : ∃ a, Builder.assemble
      ⟨⟨"f", false⟩, [xs], .internal 0, [], top [.node (.eval (.var item))], 2, 3, 4⟩ = .ok a :=
    ⟨_, rfl⟩
  obtain ⟨item', element, locals, body, ⟨B', hB', hi, hmem⟩, -, -, helement, -, hlaw⟩ :=
    hread.forEach_law (ω := Unit) rfl ha .here (i := 0) rfl
  cases hB'
  cases helement
  obtain ⟨rfl, rfl, rfl⟩ : item' = item ∧ locals = [item] ∧ body = [.eval (.var item)] := by
    cases hi
    exact ⟨rfl, rfl, rfl⟩
  let m : Machine Unit := ((Machine.new Host.empty () 12).assign xs (.list [.int 7]))
  have hsound : m.Sound fun _ _ => False := by
    refine (Machine.Sound.new Host.honest_empty (fun _ => id) 12).assign xs fun id _ => ?_
    exact Value.lacks_list.mpr (List.forall_mem_singleton.mpr List.not_mem_nil)
  obtain ⟨calls, m', hruns, hlength, hx, hlog⟩ : ∃ calls m',
      (Node.forEach iterator (.var xs) l item .int [item] [.eval (.var item)]).Runs none m calls
        (.normal .void) m' ∧ calls.length = 12 ∧ m'.env.get? 2 = some (.long 7) ∧
          m'.disposeLog = #["iterator"] := by
    exact ⟨_, _, .tail (.call .done (.call (.call (.call (.tail (.call .done (.call .done .done)))
      (.call (.tail .done) .done)) (.call (.tail .done) .done)) .done)), rfl, rfl, rfl⟩
  have h := hruns.execWithin_ok
  rw [hlength] at h
  refine ⟨_, a, _, m, m'.metered 12 12, hread, rfl, ha, hmem, rfl, h, hx, hlog, ?_⟩
  refine hlaw _ m _ 13 _ hsound (fun v m₁ hv => ?_) h
  cases (Node.eval_var (m := m.declare [iterator]) (s := xs) rfl).symm.trans hv
  exact .inr ⟨_, rfl, List.forall_mem_singleton.mpr ⟨7, rfl⟩⟩

end Builder

end StructuredFlow
