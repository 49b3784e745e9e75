import StructuredFlow.Proofs.Visits

/-
  Execution without a limit. An execution is a chain of turns: a node is done, or it goes on as a
  node below it, or it calls a node below it and waits, to be resumed with what the call has come
  to. `Turn.Ends` says what a turn comes to in the end, and in how many steps; it is a partial
  function (`Turn.Ends.unique`), since one turn determines the next.
-/

namespace StructuredFlow

variable {ω : Type}

/-- How an execution comes out that is not cut short. -/
abbrev Report (ω : Type) := EStateM.Result EvalError (Machine ω) Flow

/-- The place that is sought, if one is, is in the node. -/
def Node.Has (n : Node) (d : Option Descent) : Prop :=
  ∀ s, d = some s → n.defines s.target = true

theorem Node.has_none (n : Node) : n.Has none :=
  nofun

theorem Node.has_some {n : Node} {s : Descent} (h : n.defines s.target = true) :
    n.Has (some s) := by
  intro s' hs'
  cases hs'
  exact h

theorem Node.has_of_find? {ns : List Node} {n : Node} {s : Descent}
    (h : ns.find? (·.defines s.target) = some n) : n.Has (some s) :=
  has_some (List.find?_some (p := fun c => Node.defines s.target c) h)

/-- What a node waits with while a node below it is executed. -/
inductive Waiting where
  | row (body rest : List Node)
  | rounds (body : Node) (leave next : Label)
  | arms (bodies : List Node)
  | guarded (body : Node) (handlers : List (Handler Node)) (cleanup : Option Node)
  | handling (body : Node) (handlers : List (Handler Node)) (cleanup : Option Node)
  | cleaning (pending : Flow)

inductive Turn (ω : Type) where
  | done (r : Report ω)
  | tail (c : Call ω)
  | call (c : Call ω) (waiting : Waiting)

namespace Turn

/-- Goes on with the result of an evaluation; an exception raised there is the flow. -/
def reading {α : Type} (x : EStateM.Result EvalError (Machine ω) α)
    (next : α → Machine ω → Turn ω) : Turn ω :=
  match x with
  | .ok a m => next a m
  | .error (.thrown v) m => .done (.ok (.throw v) m)
  | .error e m => .done (.error e m)

/-- The statements of a row from some on; after them the value of the last one is that of the
row. -/
def row (body : List Node) : List Node → Option Descent → Value → Machine ω → Turn ω
  | [], _, last, m => .done (.ok (.normal last) m)
  | n :: rest, d, _, m => .call ⟨n, d, m⟩ (.row body rest)

/-- An arm of a switch, if there is one to execute. -/
def arm (bodies : List Node) : Option Node → Option Descent → Machine ω → Turn ω
  | none, _, m => .done (.ok (.normal .void) m)
  | some body, d, m => .call ⟨body, d, m⟩ (.arms bodies)

/-- A guarded region, where it is entered. -/
def region (body : Node) (handlers : List (Handler Node)) (cleanup : Option Node)
    (d : Option Descent) (m : Machine ω) : Turn ω :=
  match Exec.entrance body cleanup d with
  | .body => .call ⟨body, d, m⟩ (.guarded body handlers cleanup)
  | .cleanup n => .tail ⟨n, d, m⟩
  | .handler l => .done (.error (.jumpIntoHandler l) m)

/-- The cleanup, if there is one, while a flow is pending. -/
def clean (cleanup : Option Node) (pending : Flow) (m : Machine ω) : Turn ω :=
  match cleanup with
  | none => .done (.ok pending m)
  | some n => .call ⟨n, none, m⟩ (.cleaning pending)

/-- The body of a guarded region or the handler of its exception has ended with a flow. -/
def leaveRegion (body : Node) (handlers : List (Handler Node)) (cleanup : Option Node)
    (flow : Flow) (m : Machine ω) : Turn ω :=
  match flow with
  | .jump l v =>
    if Exec.regionDefines l body handlers cleanup then
      region body handlers cleanup (some ⟨l, v⟩) m
    else clean cleanup (.jump l v) m
  | flow => clean cleanup flow m

end Turn

open Exec

/-- What a call comes to first. -/
def Call.begin : Call ω → Turn ω
  | ⟨.nop, _, m⟩ => .done (.ok (.normal .void) m)
  | ⟨.eval e, _, m⟩ => .reading (e.eval m) fun v m => .done (.ok (.normal v) m)
  | ⟨.assign target value, _, m⟩ =>
    .reading (value.eval m) fun v m => .done (.ok (.normal .void) (m.assign target v))
  | ⟨.block locals body, d, m⟩ => .row body (Node.opening body d) d .void (m.declare locals)
  | ⟨.branch _ yes no, some s, m⟩ =>
    .tail ⟨if yes.defines s.target then yes else no, some s, m⟩
  | ⟨.branch test yes no, none, m⟩ =>
    .reading (test.eval m) fun
      | .bool holds, m => .tail ⟨if holds then yes else no, none, m⟩
      | v, m => .done (.error (.typeError (.test v)) m)
  | ⟨.loop body leave next, d, m⟩ => .call ⟨body, d, m⟩ (.rounds body leave next)
  | ⟨.label target default, d, m⟩ => .done (.ok (.normal (labelValue target default d)) m)
  | ⟨.goto target none, _, m⟩ => .done (.ok (.jump target.id none) m)
  | ⟨.goto target (some e), _, m⟩ =>
    .reading (e.eval m) fun v m => .done (.ok (.jump target.id (some v)) m)
  | ⟨.switch _ cases default, some s, m⟩ =>
    let bodies := cases.map Arm.body ++ default.toList
    .arm bodies (bodies.find? (·.defines s.target)) (some s) m
  | ⟨.switch value cases default, none, m⟩ =>
    .reading ((value.eval >>= fun v => select v cases) m) fun found m =>
      .arm (cases.map Arm.body ++ default.toList) (found <|> default) none m
  | ⟨.attempt body handlers cleanup, d, m⟩ => .region body handlers cleanup d m
  | ⟨.throw e, _, m⟩ => .reading (e.eval m) fun v m => .done (.ok (.throw v) m)
  | ⟨.rethrow, _, m⟩ =>
    match m.handling.head? with
    | some v => .done (.ok (.throw v) m)
    | none => .done (.error .noActiveException m)

/-- What a waiting node comes to when the node below it has. -/
def Waiting.resume : Waiting → Report ω → Turn ω
  | .handling body handlers cleanup, .ok flow m =>
    .leaveRegion body handlers cleanup flow m.endHandling
  | .handling _ _ _, .error e m => .done (.error e m.endHandling)
  | .row body rest, .ok (.normal v) m => .row body rest none v m
  | .row body _, .ok (.jump l v) m =>
    match placeOf l body with
    | [] => .done (.ok (.jump l v) m)
    | place => .row body place (some ⟨l, v⟩) .void m
  | .rounds body leave next, .ok (.normal _) m => .call ⟨body, none, m⟩ (.rounds body leave next)
  | .rounds body leave next, .ok (.jump l v) m =>
    if l = leave.id then .done (.ok (.normal .void) m)
    else if l = next.id then .call ⟨body, none, m⟩ (.rounds body leave next)
    else if body.defines l then .call ⟨body, some ⟨l, v⟩, m⟩ (.rounds body leave next)
    else .done (.ok (.jump l v) m)
  | .arms bodies, .ok (.jump l v) m =>
    match bodies.find? (·.defines l) with
    | some body => .arm bodies (some body) (some ⟨l, v⟩) m
    | none => .done (.ok (.jump l v) m)
  | .guarded body handlers cleanup, .ok (.throw v) m =>
    match handlers.find? (v.isInstanceOf ·.kind) with
    | some h => .call ⟨h.body, none, h.enter v m⟩ (.handling body handlers cleanup)
    | none => .clean cleanup (.throw v) m
  | .guarded body handlers cleanup, .ok flow m => .leaveRegion body handlers cleanup flow m
  | .cleaning pending, .ok (.normal _) m => .done (.ok pending m)
  | _, r => .done r

namespace Turn

/-- What a turn comes to in the end, and how many nodes are started meanwhile. -/
inductive Ends : Turn ω → Nat → Report ω → Prop
  | done {r} : Ends (.done r) 0 r
  | tail {c k r} (inner : Ends c.begin k r) : Ends (.tail c) (k + 1) r
  | call {c w k r₁ k' r} (inner : Ends c.begin k r₁) (later : Ends (w.resume r₁) k' r) :
      Ends (.call c w) (k + 1 + k') r

variable {t : Turn ω} {k k' : Nat} {r r' : Report ω}

theorem Ends.unique (h : t.Ends k r) (h' : t.Ends k' r') : k = k' ∧ r = r' := by
  induction h generalizing k' r' with
  | done =>
    cases h'
    exact ⟨rfl, rfl⟩
  | tail _ ih =>
    cases h' with
    | tail inner =>
      obtain ⟨rfl, rfl⟩ := ih inner
      exact ⟨rfl, rfl⟩
  | call _ _ ihinner ihlater =>
    cases h' with
    | call inner later =>
      obtain ⟨rfl, rfl⟩ := ihinner inner
      obtain ⟨rfl, rfl⟩ := ihlater later
      exact ⟨rfl, rfl⟩

end Turn

end StructuredFlow
