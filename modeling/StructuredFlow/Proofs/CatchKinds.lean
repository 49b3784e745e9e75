import StructuredFlow.Proofs.Conformance
import StructuredFlow.Proofs.ExceptionsSurface
import StructuredFlow.Proofs.LaidOut

/-
  Exceptions and the kinds of handlers. What a program raises is of a type that is held by reference
  (`Builder.Built.throw_reference`), and handlers may be for any such type. A value other than null
  goes to the handlers for `any` and, if its type is a class or `str`, to those for its own type, and
  to no others (`Heap.Conforms.isInstanceOf_iff`); no handler is found for the type of a list or of
  an iterator. The first handler that is found answers for the region
  (`Builder.Reachable.catch_kinds`).
-/

namespace StructuredFlow

variable {ω : Type}

open Outcome Exec Node

/-! ## Kinds -/

/-- Handlers for the type are found by it. -/
def Ty.isCaught : Ty → Bool
  | str | any | object _ => true
  | _ => false

/-- Kinds match the types of values exactly, apart from `any`. -/
theorem Heap.Conforms.isInstanceOf_iff {h : Heap} {ty : Ty} {v : Value} (hv : h.Conforms ty v)
    (hreference : ty.isReference = true) (hany : ty ≠ .any) (hnull : v ≠ .null) (kind : Ty) :
    v.isInstanceOf kind = true ↔ kind = .any ∨ kind = ty ∧ ty.isCaught = true := by
  cases ty with
  | any => exact absurd rfl hany
  | str =>
    obtain ⟨s, rfl⟩ := hv.resolve_left hnull
    cases kind <;> simp [Value.isInstanceOf, Ty.isCaught]
  | object name =>
    obtain ⟨id, fields, rfl⟩ := hv.resolve_left hnull
    cases kind with
    | object name' => simpa [Value.isInstanceOf, Ty.isCaught] using eq_comm
    | _ => simp [Value.isInstanceOf, Ty.isCaught]
  | list elem =>
    obtain ⟨items, rfl, -⟩ := hv.resolve_left hnull
    cases kind <;> simp [Value.isInstanceOf, Ty.isCaught]
  | iterator elem disposable =>
    obtain ⟨id, rfl, -⟩ := hv.resolve_left hnull
    cases kind <;> simp [Value.isInstanceOf, Ty.isCaught]
  | _ => cases hreference

/-! ## What programs raise -/

/-- Each node of a tree that a plan describes plays some part. -/
theorem Plan.Describes.exists_plays {b : Builder} {plan : Plan} {n m : Node}
    (h : plan.Describes b n) (hm : m ∈ n.subnodes) : ∃ purpose, b.Plays purpose m := by
  induction n using Node.induct generalizing plan with
  | step n ih =>
    cases h with
    | node plays stands below =>
      rcases mem_subnodes_iff.mp hm with rfl | ⟨c, hc, hm⟩
      · exact ⟨_, plays⟩
      · obtain ⟨p, -, hp⟩ := exists_left_of_forall₂ below hc
        exact ih c hc hp hm

namespace Builder

variable {F : Fragment → Prop} {b : Builder} {a : Artifact} {e : Expr}

/-- No part of a construct raises an exception by itself. -/
theorem Prescribes.of_throw {stmt : Stmt Scope} {part : Part}
    (h : b.Prescribes stmt part (.throw e)) : stmt = .node (.throw e) := by
  generalize hn : Node.throw e = n at h
  cases h with
  | root whole makes =>
    unfold Makes at makes
    generalize ht : stmt.map (Scope.block b.label? Block.collapse) = t at makes
    cases makes with
    | node n =>
      cases stmt with
      | node n' =>
        cases ht
        rfl
      | _ => cases ht
    | conditional links otherwise =>
      cases stmt with
      | conditional => cases whole
      | _ => cases ht
    | iteration iterator collection l body =>
      unfold Node.ofIteration at hn
      dsimp only at hn
      split at hn <;> cases hn
    | soleDefault value fall body =>
      cases stmt with
      | switch value' groups default =>
        obtain ⟨-, hgroups, hdefault⟩ := Stmt.switch.inj ht
        obtain rfl := List.map_eq_nil_iff.mp hgroups
        cases default with
        | none => cases hdefault
        | some d => cases whole
      | _ => cases ht
    | @switch value groups default => cases default <;> cases hn
    | goto | loop | attempt | resource => cases hn
  | release released =>
    unfold Node.disposal at hn
    dsimp only at hn
    split at hn <;> cases hn
  | _ => cases hn

/-- A node that raises an exception is a statement of its own. -/
theorem Plays.of_throw {purpose : Purpose} (h : b.Plays purpose (.throw e)) :
    ∃ site, b.at? site = some (.node (.throw e)) := by
  cases purpose with
  | part site part =>
    obtain ⟨stmt, hat, hprescribes⟩ := h
    exact ⟨site, hprescribes.of_throw ▸ hat⟩
  | block id =>
    obtain ⟨_, _, -, hn⟩ := h
    cases hn
  | empty id =>
    obtain ⟨_, -, -, hn⟩ := h
    cases hn
  | body =>
    obtain ⟨_, hn⟩ := h
    cases hn
  | returning => cases h

/-- A statement raises only what is held by reference. -/
theorem Built.stmt_reference (hb : b.Built F) {outer : Chain} {s : Scope}
    (hs : b.top.Within outer s) (hstmt : .node (.throw e) ∈ s.stmts) :
    e.type.isReference = true := by
  induction hb generalizing outer s with
  | empty options returnType =>
    rcases hs.cases_root with ⟨-, rfl⟩ | ⟨c, hc, -⟩
    · exact absurd hstmt List.not_mem_nil
    · exact absurd hc List.not_mem_nil
  | @edit b b' built edit ih =>
    obtain ⟨n, hn, hquiet⟩ | ⟨o, u, hu, -, horigin⟩ := edit.stmt_origin built.numbered hs hstmt
    · cases hn
      exact absurd rfl (hquiet e)
    rcases horigin with ⟨old, hold, g, hg⟩ | ⟨old, -, b₁, grows⟩ | ⟨stmts, b₁, adds, hadded⟩
    · cases old with
      | node n =>
        cases hg
        exact ih hu hold
      | _ => cases hg
    · cases grows
    · cases adds with
      | throw settled reference =>
        cases List.mem_singleton.mp hadded
        exact reference
      | doWhile =>
        rcases List.mem_cons.mp hadded with hadded | hadded
        · cases hadded
        · cases List.mem_singleton.mp hadded
      | _ => cases List.mem_singleton.mp hadded

/-- A program raises only what is held by reference. -/
theorem Built.throw_reference (hb : b.Built F) (ha : b.assemble = .ok a)
    (hn : .throw e ∈ a.body.subnodes) : e.type.isReference = true := by
  obtain ⟨purpose, hplays⟩ := (hb.plan_describes ha).exists_plays hn
  obtain ⟨site, hat⟩ := hplays.of_throw
  obtain ⟨s, hs, hstmt⟩ := Option.bind_eq_some_iff.mp hat
  obtain ⟨outer, place, -⟩ := Scope.exists_of_find? hs
  exact hb.stmt_reference place (List.mem_of_getElem? hstmt)

end Builder

/-! ## Regions that answer -/

namespace Exec

/-- The places in a region are those in its parts and in its handlers. -/
theorem regionDefines_attempt (l : LabelId) (body : Node) (handlers : List (Handler Node))
    (cleanup : Option Node) :
    regionDefines l body handlers cleanup = (Node.attempt body handlers cleanup).defines l := by
  have hhandlers : (handlers.map Handler.body).any (defines l) =
      handlers.any (·.body.defines l) := List.any_map
  have hchildren : (Node.attempt body handlers cleanup).children =
      body :: (handlers.map Handler.body ++ cleanup.toList) := rfl
  have hcleanup : cleanup.toList.any (defines l) = cleanup.any (·.defines l) := by
    cases cleanup <;> simp
  rw [defines_eq, hchildren, List.any_cons, List.any_append, hhandlers, hcleanup,
    Bool.or_comm (handlers.any _), ← Bool.or_assoc (body.defines l)]
  rfl

variable {run : Runner ω} {body : Node} {handlers : List (Handler Node)} {cleanup : Option Node}
  {fuel : Nat} {d : Option Descent} {m m₁ m₂ : Machine ω} {v : Value}

/-- The flow of the handler takes the place of the exception that it answers to. -/
theorem BodyThrows.answered (h : BodyThrows run body handlers cleanup fuel d m v m₁)
    {hd : Handler Node} (found : handlers.find? (v.isInstanceOf ·.kind) = some hd) {flow : Flow}
    (answer : run hd.body none (hd.enter v m₁) = .ok flow m₂)
    (leaves : ∀ l w, flow = .jump l w → regionDefines l body handlers cleanup = false) :
    region run body handlers cleanup fuel d m = cleaning run cleanup flow m₂.endHandling := by
  induction h with
  | now start threw =>
    refine region_leaving start threw ?_ leaves
    rw [dispatch_found found]
    exact handle_ok.mpr ⟨m₂, answer, rfl⟩
  | again start ended dispatched inside _ ih =>
    rw [region_again start ended dispatched inside]
    exact ih found answer

end Exec

namespace Call

variable {fuel : Nat} {c : Call ω} {v : Value} {m : Machine ω} {e : Expr}

/-- The call is of a node that raises the value of the expression. -/
structure Raises (c : Call ω) (e : Expr) (v : Value) (m : Machine ω) : Prop where
  node : c.node = .throw e
  value : ∃ m₁, tick c.machine = .ok () m₁ ∧ e.eval m₁ = .ok v m

/-- The handler answers to an exception of the region that is called. -/
structure AnsweredBy (fuel : Nat) (c : Call ω) (v : Value) (m : Machine ω) (h : Handler Node) :
    Prop where
  /-- It is entered with the exception, which its variable is bound to. -/
  enters : Calls (fuel + 1) c.node c.descent c.machine (some (h, v)) ⟨h.body, none, h.enter v m⟩
  /-- What it ends with takes the place of the exception: unless that is a jump inside of the region,
  it is what the cleanup is run for, and then what the region ends with. -/
  replaces : ∀ flow m₁, h.body.execWithin fuel none (h.enter v m) = .ok flow m₁ →
    (∀ l w, flow = .jump l w → c.node.defines l = false) →
      c.result (execWithin (fuel + 1)) = cleaning (execWithin fuel) c.node.cleanup flow m₁.endHandling

theorem Raises.result (h : c.Raises e v m) (fuel : Nat) :
    c.result (execWithin (fuel + 1)) = .ok (.throw v) m := by
  obtain ⟨hnode, m₁, ticked, hv⟩ := h
  rw [Call.result, hnode, execWithin, step.eq_def, andThen_of_ok ticked]
  dsimp only
  unfold evaluating
  rw [hv]
  rfl

theorem BodyThrows.answeredBy (h : c.BodyThrows fuel v m) {hd : Handler Node}
    (found : c.node.handlers.find? (v.isInstanceOf ·.kind) = some hd) :
    c.AnsweredBy fuel v m hd where
  enters := h.handled found
  replaces flow m₁ answer leaves := by
    obtain ⟨body, handlers, cleanup, m₂, hnode, ticked, hthrows⟩ := h
    obtain ⟨n, d, m₀⟩ := c
    dsimp only at hnode ticked found leaves ⊢
    subst hnode
    rw [Call.result, execWithin, step, andThen_of_ok ticked]
    exact hthrows.answered found answer fun l w hl =>
      (regionDefines_attempt l body handlers cleanup).trans (leaves l w hl)

end Call

namespace Builder

variable {b : Builder} {a : Artifact} {e : Expr} {args : List Value} {m : Machine ω}

/-- What a program raises is held by reference, as the kinds of handlers are; a node that raises a
value ends with it as the exception. If the value is not null and of the type that its expression
has, other than `any`, it goes to handlers for `any`, to those for its type if that is `str` or a
class, and to no others; so the first of these answers to it in each region whose body it leaves. -/
theorem Reachable.catch_kinds (hb : b.Reachable) (ha : b.assemble = .ok a) {fuel : Nat}
    {around : List Node} {caught : List (Handler Node × Value)} {c : Call ω}
    (hc : a.Visits args m fuel around caught c) {v : Value} {m₁ : Machine ω}
    (hraises : c.Raises e v m₁) (hany : e.type ≠ .any) (hnull : v ≠ .null)
    (hconforms : m₁.heap.Conforms e.type v) :
    e.type.isReference = true ∧ c.result (execWithin fuel) = .ok (.throw v) m₁ ∧
      (∀ kind, v.isInstanceOf kind = true ↔ kind = .any ∨ kind = e.type ∧ e.type.isCaught = true) ∧
        ∀ (fuel' : Nat) (c' : Call ω) (m' : Machine ω), c'.BodyThrows fuel' v m' →
          ∀ before h after, c'.node.handlers = before ++ h :: after →
            (h.kind = .any ∨ h.kind = e.type ∧ e.type.isCaught = true) →
              (∀ h' ∈ before, v.isInstanceOf h'.kind = false) → c'.AnsweredBy fuel' v m' h := by
  have hmem : .throw e ∈ a.body.subnodes := hraises.node ▸ hc.stands.mem_subnodes
  have hreference := hb.built.throw_reference ha hmem
  have hkinds := hconforms.isInstanceOf_iff hreference hany hnull
  refine ⟨hreference, ?_, hkinds, fun fuel' c' m' hthrows before h after order hkind hfirst => ?_⟩
  · obtain ⟨less, rfl⟩ := hc.executes.fuel_eq
    exact hraises.result less
  · refine hthrows.answeredBy (List.find?_eq_some_iff_append.mpr ⟨?_, before, after, order, ?_⟩)
    · exact (hkinds h.kind).mpr hkind
    · exact fun h' hh' => (Bool.not_eq_true' _).mpr (hfirst h' hh')

/-- A text that is raised and caught by a handler for texts, behind one for a class. -/
theorem catch_kinds_of_text :
    ∃ (b : Builder) (a : Artifact) (around : List Node) (c c' : Call Unit) (m : Machine Unit)
      (h h' : Handler Node),
      b.Reachable ∧ b.assemble = .ok a ∧ a.Visits [] (.new .empty () 20) 19 around [] c ∧
        c.Raises (.const (.str "lost")) (.str "lost") m ∧ m.heap.Conforms .str (.str "lost") ∧
          h.kind = .str ∧ c'.node.handlers = [h', h] ∧ c'.BodyThrows 19 (.str "lost") m ∧
            Ty.str.isReference = true ∧
              c.result (execWithin 19) = .ok (.throw (.str "lost")) m ∧
                (∀ kind, Value.isInstanceOf (.str "lost") kind = true ↔
                  kind = .any ∨ kind = .str ∧ Ty.str.isCaught = true) ∧
                  c'.AnsweredBy 19 (.str "lost") m h := by
  obtain ⟨b, hb⟩ : ∃ b, Builder.create ⟨"f", false⟩ [] .void = .ok b := ⟨_, rfl⟩
  have hguarded := (Reachable.create hb).opening 0 .guarded
  have hthrow := hguarded.statement 1 (.throw ⟨[], .const (.str "lost")⟩)
  have hclass := hthrow.step (h := .guarded ⟨0, 0⟩ 1) (s := .handler (.object "E") none) rfl
  have htext := hclass.step (h := .guarded ⟨0, 0⟩ 1) (s := .handler .str (some "s")) rfl
  cases hb
  let raise : Node := .throw (.const (.str "lost"))
  let others : Handler Node := ⟨.object "E", none, .nop⟩
  let texts : Handler Node := ⟨.str, some ⟨0, some "s", .str⟩, .nop⟩
  let a : Artifact := ⟨"f", [], .typed 0 .void, .block []
    [.attempt raise [others, texts] none, .label (.typed 0 .void) none]⟩
  obtain ⟨b, hb, hassemble⟩ : ∃ b : Builder, b.Reachable ∧ b.assemble = .ok a := ⟨_, htext, rfl⟩
  let m : Machine Unit := { Machine.new .empty () 20 with steps := 3 }
  let c : Call Unit := ⟨raise, none, { m with steps := 2 }⟩
  let c' : Call Unit := ⟨.attempt raise [others, texts] none, none, { m with steps := 1 }⟩
  have hlen : ([] : List Value).length = a.params.length := rfl
  have hattempt := Artifact.Visits.of_call (m := .new .empty () 20) hlen (.block rfl .head)
  have hc : a.Visits [] (.new .empty () 20) 19 _ [] c := hattempt.call (.attempt rfl (.body rfl))
  have hraises : c.Raises (.const (.str "lost")) (.str "lost") m := ⟨rfl, _, rfl, rfl⟩
  have hconforms : m.heap.Conforms .str (.str "lost") := .inr ⟨"lost", rfl⟩
  have hthrows : c'.BodyThrows 19 (.str "lost") m := ⟨_, _, _, _, rfl, rfl, .now rfl rfl⟩
  obtain ⟨hreference, hresult, hkinds, hanswered⟩ :=
    hb.catch_kinds hassemble hc hraises nofun nofun hconforms
  refine ⟨b, a, _, c, c', m, texts, others, hb, hassemble, hc, hraises, hconforms, rfl, rfl, hthrows,
    hreference, hresult, hkinds, ?_⟩
  refine hanswered 19 c' m hthrows [others] texts [] rfl (.inr ⟨rfl, rfl⟩) ?_
  exact List.forall_mem_singleton.mpr rfl

/-- A list that is raised gets past the handler for its type. -/
theorem list_not_caught :
    ∃ (b : Builder) (a : Artifact) (body answer : Node) (m m' : Machine Unit),
      b.Reachable ∧ b.assemble = .ok a ∧
        .attempt body [⟨.list .int, none, answer⟩] none ∈ a.body.subnodes ∧
          body = .throw (.list .int [.const (.int 1)]) ∧
            m'.heap.Conforms (.list .int) (.list [.int 1]) ∧
              a.run [] m = .error (.uncaught (.list [.int 1])) m' := by
  obtain ⟨b, hb⟩ : ∃ b, Builder.create ⟨"f", false⟩ [] .int = .ok b := ⟨_, rfl⟩
  have hguarded := (Reachable.create hb).opening 0 .guarded
  have hthrow := hguarded.statement 1 (.throw ⟨[], .list .int [.const (.int 1)]⟩)
  have hhandler := hthrow.step (h := .guarded ⟨0, 0⟩ 1) (s := .handler (.list .int) none) rfl
  have hreturn := hhandler.statement 2 (.returnValue .int ⟨[], .const (.int 7)⟩)
  cases hb
  let body : Node := .throw (.list .int [.const (.int 1)])
  let answer : Node := .goto (.typed 0 .int) (some (.const (.int 7)))
  let a : Artifact := ⟨"f", [], .typed 0 .int, .block []
    [.attempt body [⟨.list .int, none, answer⟩] none, .label (.typed 0 .int) (some (.int 0))]⟩
  obtain ⟨b, hb, hassemble⟩ : ∃ b : Builder, b.Reachable ∧ b.assemble = .ok a := ⟨_, hreturn, rfl⟩
  refine ⟨b, a, body, answer, .new .empty () 20, _, hb, hassemble, ?_, rfl, ?_, rfl⟩
  · exact List.mem_cons_of_mem _ List.mem_cons_self
  · exact .inr ⟨_, rfl, List.forall_mem_singleton.mpr ⟨1, rfl⟩⟩

end Builder

end StructuredFlow
