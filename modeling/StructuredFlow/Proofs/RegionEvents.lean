import StructuredFlow.Proofs.Binders
import StructuredFlow.Proofs.Traces

/-
  What happens to the variable of a region in the course of an execution. A call can be an event
  for the variable (`Call.events`): it acquires a value, its region is entered by a jump that goes
  past the producer, or it disposes of what the variable holds. Nodes that spare the variable have
  no event and leave it as it is (`Node.Spares`), so an execution is made up of what the other ones
  do in it (`Turn.Traces.made_up`).
-/

namespace StructuredFlow

variable {ω : Type}

open Exec Outcome

/-! ## Events -/

/-- An event for the variable of a region. -/
inductive RegionEvent where
  | acquired (v : Value)
  | reentered
  | disposed (v : Value)
deriving Repr

/-- The disposal of a value; null is not disposed of. -/
def Value.disposals : Value → List RegionEvent
  | .null => []
  | v => [.disposed v]

/-- What a variable holds: before it is declared, the zero of its type. -/
def Machine.holds (m : Machine ω) (s : Symbol) : Value :=
  (m.env.get? s.id).getD (Value.zero s.ty)

/-- The events for a variable that a call is, apart from those of the calls that it makes: the
assignment of a value, the entry into the block of the variable on the way to a place in it, and the
disposal of its value, which the machine has to log. -/
def Call.events (s : Symbol) : Call ω → List RegionEvent
  | ⟨.assign target value, _, m⟩ =>
    if target.id = s.id then
      match value.eval m with
      | .ok v _ => [.acquired v]
      | .error _ _ => []
    else []
  | ⟨.block locals body, some d, _⟩ =>
    if locals.any (·.id == s.id) && (Node.block locals body).defines d.target then [.reentered]
    else []
  | ⟨.eval (.intrinsic .dispose [.var x]), _, m⟩ =>
    if x.id = s.id then
      match (Expr.intrinsic .dispose [.var x]).eval m with
      | .ok _ m' =>
        if m'.disposeLog = m.disposeLog.push (m.holds s).disposalName then [.disposed (m.holds s)]
        else []
      | .error _ _ => []
    else []
  | _ => []

/-! ## Nodes that spare the variable -/

/-- The node by itself neither assigns the variable with the number, nor binds it, nor disposes of
its value. -/
structure Node.Spares (id : SymbolId) (n : Node) : Prop where
  assigns : ∀ target value, n = .assign target value → target.id ≠ id
  binds : ∀ x ∈ n.binds, x.id ≠ id
  disposes : ∀ x, n = .eval (.intrinsic .dispose [.var x]) → x.id ≠ id

variable {s : Symbol} {m m' : Machine ω}

theorem Node.Spares.events_eq {c : Call ω} (h : c.node.Spares s.id) : c.events s = [] := by
  obtain ⟨n, d, m⟩ := c
  cases n with
  | assign target value => exact if_neg (h.assigns target value rfl)
  | block locals body =>
    cases d with
    | none => rfl
    | some d =>
      refine if_neg fun hany => ?_
      obtain ⟨x, hx, hid⟩ := List.any_eq_true.mp (Bool.and_eq_true_iff.mp hany).1
      exact h.binds x hx (beq_iff_eq.mp hid)
  | eval e =>
    unfold Call.events
    split
    next heq => cases heq
    next heq => cases heq
    next x _ _ heq =>
      cases heq
      exact if_neg (h.disposes x rfl)
    next => rfl
  | _ => rfl

namespace Machine

theorem holds_assign_of_ne {target : Symbol} {v : Value} (h : target.id ≠ s.id) :
    (m.assign target v).holds s = m.holds s := by
  rw [holds, assign, Env.get?_insert, if_neg h.symm, holds]

theorem holds_assign (s : Symbol) (v : Value) : (m.assign s v).holds s = v := by
  rw [holds, assign, Env.get?_insert, if_pos rfl, Option.getD_some]

/-- Declaring variables does not change what a variable holds, whether it is one of them or not. -/
theorem holds_declare {locals : List Symbol} (h : ∀ x ∈ locals, x.id = s.id → x = s) :
    (m.declare locals).holds s = m.holds s := by
  induction locals generalizing m with
  | nil => rfl
  | cons x locals ih =>
    obtain ⟨hx, h⟩ := List.forall_mem_cons.mp h
    refine (ih (m := { m with env := m.env.declare x }) h).trans ?_
    rw [holds, Env.get?_declare, holds]
    split
    next hid =>
      obtain rfl := hx hid.1.symm
      rw [hid.2]
      rfl
    next => rfl

theorem Evaluated.holds_eq (h : m.Evaluated m') : m'.holds s = m.holds s := by
  rw [holds, h.env, holds]

end Machine

theorem Handler.holds_enter {h : Handler Node} {v : Value} (hs : ∀ x ∈ h.binding, x.id ≠ s.id) :
    (h.enter v m).holds s = m.holds s := by
  unfold enter
  cases hbinding : h.binding with
  | none => rfl
  | some x => exact Machine.holds_assign_of_ne (hs x hbinding)

/-! ## Turns among given nodes -/

/-- What a node waits for goes on with nodes of a kind, and its handlers have variables of their
own. -/
def Waiting.Among (P : Node → Prop) (id : SymbolId) : Waiting → Prop
  | .row body rest => (∀ n ∈ body, P n) ∧ ∀ n ∈ rest, P n
  | .rounds body _ _ => P body
  | .arms bodies => ∀ n ∈ bodies, P n
  | .guarded body handlers cleanup | .handling body handlers cleanup =>
    P body ∧ (∀ h ∈ handlers, P h.body ∧ ∀ x ∈ h.binding, x.id ≠ id) ∧ ∀ n ∈ cleanup, P n
  | .cleaning _ => True

/-- The machine that a turn starts from. -/
def Turn.machine : Turn ω → Machine ω
  | .done r => final r
  | .tail c | .call c _ => c.machine

/-- The turn goes on with nodes of a kind, and it starts with the variable holding the value. -/
structure Turn.Among (P : Node → Prop) (s : Symbol) (v : Value) (t : Turn ω) : Prop where
  tail : ∀ c, t = .tail c → P c.node
  call : ∀ c w, t = .call c w → P c.node ∧ w.Among P s.id
  holds : t.machine.holds s = v

namespace Turn.Among

variable {P : Node → Prop} {v : Value}

theorem ofDone {r : Report ω} (h : (final r).holds s = v) : (Turn.done r).Among P s v :=
  ⟨nofun, nofun, h⟩

theorem ofTail {c : Call ω} (hc : P c.node) (h : c.machine.holds s = v) :
    (Turn.tail c).Among P s v where
  tail _ hc' := Turn.tail.inj hc' ▸ hc
  call := nofun
  holds := h

theorem ofCall {c : Call ω} {w : Waiting} (hc : P c.node) (hw : w.Among P s.id)
    (h : c.machine.holds s = v) : (Turn.call c w).Among P s v where
  tail := nofun
  call c' w' hc' := by
    cases hc'
    exact ⟨hc, hw⟩
  holds := h

/-- An evaluation leaves all variables as they are. -/
theorem reading {α : Type} {x : Eval ω α} {next : α → Machine ω → Turn ω} (hx : Eval.Quiet x)
    (hnext : ∀ a m', m'.holds s = m.holds s → (next a m').Among P s (m.holds s)) :
    (Turn.reading (x m) next).Among P s (m.holds s) := by
  have hm := (hx m).holds_eq (s := s)
  unfold Turn.reading
  cases h : x m with
  | ok a m' =>
    rw [h] at hm
    exact hnext a m' hm
  | error e m' =>
    rw [h] at hm
    cases e <;> exact .ofDone hm

theorem row {body rest : List Node} (hbody : ∀ n ∈ body, P n) (hrest : ∀ n ∈ rest, P n)
    (d : Option Descent) (last : Value) (h : m.holds s = v) :
    (Turn.row body rest d last m).Among P s v := by
  cases rest with
  | nil => exact .ofDone h
  | cons n rest =>
    obtain ⟨hn, hrest⟩ := List.forall_mem_cons.mp hrest
    exact .ofCall hn ⟨hbody, hrest⟩ h

theorem arm {bodies : List Node} (hbodies : ∀ n ∈ bodies, P n) {body : Option Node}
    (hbody : ∀ n ∈ body, P n) (d : Option Descent) (h : m.holds s = v) :
    (Turn.arm bodies body d m).Among P s v := by
  cases body with
  | none => exact .ofDone h
  | some n => exact .ofCall (hbody n rfl) hbodies h

/-- The arm that is chosen is one of the switch. -/
theorem choice {value : Expr} {arms : List (Arm Node)} {default : Option Node}
    (hbodies : ∀ n ∈ arms.map Arm.body ++ default.toList, P n) :
    (Turn.reading ((value.eval >>= fun v => select v arms) m) fun found m =>
      .arm (arms.map Arm.body ++ default.toList) (found <|> default) none m).Among P s
        (m.holds s) := by
  have hm := (choice_quiet value arms m).holds_eq (s := s)
  unfold Turn.reading
  cases hfound : (value.eval >>= fun v => select v arms : Eval ω (Option Node)) m with
  | ok found m' =>
    rw [hfound] at hm
    refine .arm hbodies (fun n hn => hbodies n ?_) none hm
    cases found with
    | none => exact List.mem_append_right _ (Option.mem_toList.mpr hn)
    | some body =>
      obtain rfl : body = n := Option.some.inj hn
      obtain ⟨v, m₁, -, hselect⟩ := andThen_ok.mp hfound
      exact List.mem_append_left _ (Node.select_mem hselect)
  | error e m' =>
    rw [hfound] at hm
    cases e <;> exact .ofDone hm

section

variable {body : Node} {handlers : List (Handler Node)} {cleanup : Option Node}
  (hparts : (Waiting.guarded body handlers cleanup).Among P s.id)
include hparts

theorem region (d : Option Descent) (h : m.holds s = v) :
    (Turn.region body handlers cleanup d m).Among P s v := by
  unfold Turn.region
  split
  next => exact .ofCall hparts.1 hparts h
  next n hn => exact .ofTail (hparts.2.2 n (entrance_cleanup hn).1) h
  next => exact .ofDone h

theorem clean (pending : Flow) (h : m.holds s = v) :
    (Turn.clean cleanup pending m).Among P s v := by
  cases cleanup with
  | none => exact .ofDone h
  | some n => exact .ofCall (hparts.2.2 n rfl) trivial h

theorem leaveRegion (flow : Flow) (h : m.holds s = v) :
    (Turn.leaveRegion body handlers cleanup flow m).Among P s v := by
  cases flow with
  | normal w => exact clean hparts _ h
  | throw w => exact clean hparts _ h
  | jump l w =>
    unfold Turn.leaveRegion
    dsimp only
    split
    · exact region hparts _ h
    · exact clean hparts _ h

end

end Turn.Among

/-- A node that spares the variable goes on with its children and leaves the variable as it is. -/
theorem Call.begin_among {P : Node → Prop} {c : Call ω} (hspares : c.node.Spares s.id)
    (hchildren : ∀ n ∈ c.node.children, P n) : c.begin.Among P s (c.machine.holds s) := by
  obtain ⟨n, d, m⟩ := c
  dsimp only at hspares hchildren ⊢
  cases n with
  | nop => exact .ofDone rfl
  | eval e => exact .reading (Eval.closed_quiet.eval e) fun _ _ h => .ofDone h
  | assign target value =>
    refine .reading (Eval.closed_quiet.eval value) fun _ _ h => .ofDone ?_
    exact (Machine.holds_assign_of_ne (hspares.assigns _ _ rfl)).trans h
  | block locals body =>
    refine .row hchildren (fun n hn => hchildren n ?_) d .void ?_
    · cases d with
      | none => exact hn
      | some d => exact placeOf_subset _ _ hn
    · exact Machine.holds_declare fun x hx hid => absurd hid (hspares.binds x hx)
  | branch test yes no =>
    have hyes : P yes := hchildren yes List.mem_cons_self
    have hno : P no := hchildren no (List.mem_cons_of_mem _ (List.mem_singleton_self no))
    cases d with
    | some d =>
      refine .ofTail ?_ rfl
      dsimp only
      split
      · exact hyes
      · exact hno
    | none =>
      refine .reading (Eval.closed_quiet.eval test) fun v m' h => ?_
      cases v with
      | bool holds =>
        refine .ofTail ?_ h
        dsimp only
        split
        · exact hyes
        · exact hno
      | _ => exact .ofDone h
  | loop body leave next =>
    have hbody : P body := hchildren body (List.mem_singleton_self body)
    exact .ofCall hbody hbody rfl
  | label target default => exact .ofDone rfl
  | goto target value =>
    cases value with
    | none => exact .ofDone rfl
    | some e => exact .reading (Eval.closed_quiet.eval e) fun _ _ h => .ofDone h
  | switch value arms default =>
    cases d with
    | some d => exact .arm hchildren (fun n hn => hchildren n (List.mem_of_find?_eq_some hn)) _ rfl
    | none => exact .choice hchildren
  | attempt body handlers cleanup =>
    refine .region ⟨hchildren body List.mem_cons_self, fun h hh => ⟨hchildren _ ?_, ?_⟩, ?_⟩ d rfl
    · exact List.mem_cons_of_mem _ (List.mem_append_left _ (List.mem_map_of_mem hh))
    · intro x hx
      exact hspares.binds x (List.mem_flatMap.mpr ⟨h, hh, Option.mem_toList.mpr hx⟩)
    · intro n hn
      refine hchildren n (List.mem_cons_of_mem _ (List.mem_append_right _ ?_))
      exact Option.mem_toList.mpr hn
  | throw e => exact .reading (Eval.closed_quiet.eval e) fun _ _ h => .ofDone h
  | rethrow =>
    unfold Call.begin
    dsimp only
    split <;> exact .ofDone rfl

/-- What comes back to a waiting node leaves the variable as it is. -/
theorem Waiting.resume_among {P : Node → Prop} {w : Waiting} (hw : w.Among P s.id) (flow : Flow)
    (m : Machine ω) : (w.resume (.ok flow m)).Among P s (m.holds s) := by
  cases w with
  | row body rest =>
    cases flow with
    | normal v => exact .row hw.1 hw.2 none v rfl
    | throw v => exact .ofDone rfl
    | jump l v =>
      dsimp only [resume]
      cases hplace : placeOf l body with
      | nil => exact .ofDone rfl
      | cons n rest =>
        exact .row hw.1 (fun n hn => hw.1 n (placeOf_subset l body (hplace ▸ hn))) _ _ rfl
  | rounds body leave next =>
    cases flow with
    | normal v => exact .ofCall hw hw rfl
    | throw v => exact .ofDone rfl
    | jump l v =>
      dsimp only [resume]
      split
      · exact .ofDone rfl
      · split
        · exact .ofCall hw hw rfl
        · split
          · exact .ofCall hw hw rfl
          · exact .ofDone rfl
  | arms bodies =>
    cases flow with
    | normal v => exact .ofDone rfl
    | throw v => exact .ofDone rfl
    | jump l v =>
      dsimp only [resume]
      cases hfound : bodies.find? (·.defines l) with
      | none => exact .ofDone rfl
      | some n =>
        refine .arm hw (fun n' hn' => ?_) _ rfl
        obtain rfl := Option.some.inj hn'
        exact hw n (List.mem_of_find?_eq_some hfound)
  | guarded body handlers cleanup =>
    cases flow with
    | normal v => exact .clean hw _ rfl
    | jump l v => exact .leaveRegion hw (.jump l v) rfl
    | throw v =>
      dsimp only [resume]
      cases hfound : handlers.find? (v.isInstanceOf ·.kind) with
      | none => exact .clean hw _ rfl
      | some h =>
        obtain ⟨hbody, hbinding⟩ := hw.2.1 h (List.mem_of_find?_eq_some hfound)
        exact .ofCall hbody hw (Handler.holds_enter hbinding)
  | handling body handlers cleanup => exact .leaveRegion hw flow rfl
  | cleaning pending => cases flow <;> exact .ofDone rfl

/-- A node does not go on after a cause to stop. -/
theorem Waiting.resume_error (w : Waiting) (e : EvalError) (m : Machine ω) :
    ∃ m', w.resume (.error e m) = .done (.error e m') := by
  cases w <;> exact ⟨_, rfl⟩

/-! ## Traces -/

/-- An execution among nodes that spare the variable is made up of what the other ones do: `S`
relates what the variable holds at first, the events, and what it holds in the end. -/
theorem Turn.Traces.made_up {P B : Node → Prop} {S : Value → List RegionEvent → Value → Prop}
    (refl : ∀ v, S v [] v)
    (trans : ∀ {u v w es es'}, S u es v → S v es' w → S u (es ++ es') w)
    (hP : ∀ n, P n → B n ∨ n.Spares s.id ∧ ∀ c ∈ n.children, P c)
    (hbase : ∀ (c : Call ω) calls flow m, B c.node → c.begin.Traces calls (.ok flow m) →
      S (c.machine.holds s) ((c :: calls).flatMap (Call.events s)) (m.holds s))
    {t : Turn ω} {v : Value} (ht : t.Among P s v) {calls : List (Call ω)} {flow : Flow}
    {m : Machine ω} (h : t.Traces calls (.ok flow m)) :
    S v (calls.flatMap (Call.events s)) (m.holds s) := by
  -- One call together with what it goes on with.
  have hcall : ∀ {c : Call ω} {calls flow m}, P c.node → c.begin.Traces calls (.ok flow m) →
      (∀ {v}, c.begin.Among P s v → S v (calls.flatMap (Call.events s)) (m.holds s)) →
      S (c.machine.holds s) ((c :: calls).flatMap (Call.events s)) (m.holds s) := by
    intro c calls flow m hc htraces ih
    rcases hP c.node hc with hbased | ⟨hspares, hchildren⟩
    · exact hbase c calls flow m hbased htraces
    · rw [List.flatMap_cons, hspares.events_eq]
      exact ih (Call.begin_among hspares hchildren)
  generalize hr : (.ok flow m : Report ω) = r at h
  induction h generalizing v flow m with
  | done =>
    subst hr
    exact ht.holds ▸ refl _
  | tail inner ih =>
    subst hr
    exact ht.holds ▸ hcall (ht.tail _ rfl) inner fun hbegin => ih hbegin rfl
  | @call c w calls r₁ calls' r inner later ihinner ihlater =>
    subst hr
    obtain ⟨hc, hw⟩ := ht.call _ _ rfl
    cases r₁ with
    | error e m₁ =>
      obtain ⟨m₂, hresume⟩ := w.resume_error e m₁
      rw [hresume] at later
      cases later
    | ok flow₁ m₁ =>
      rw [← List.cons_append, List.flatMap_append]
      refine trans (ht.holds ▸ hcall hc inner fun hbegin => ihinner hbegin rfl) ?_
      exact ihlater (Waiting.resume_among hw flow₁ m₁) rfl

end StructuredFlow
