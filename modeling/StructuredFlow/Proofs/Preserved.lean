import StructuredFlow.Proofs.Evaluation
import StructuredFlow.Proofs.HeapKept
import StructuredFlow.Proofs.Outcome

/-
  Relations that an execution preserves. A relation between the machine before and the machine after
  that everything which the nodes of a tree do by themselves has, and two things in a row if each of
  them has it (`Node.Carries`), holds between the machine that the tree is executed in and the one in
  which this ends, whatever the place to be found and however it ends (`Node.execWithin_preserves`).
  The induction is on the fuel; the loops of a node are taken one by one, for a runner that preserves
  the relation on the nodes that they run.
-/

namespace StructuredFlow

namespace Outcome

variable {ε σ α β : Type} {R : σ → σ → Prop}

/-- The state in which a program ends, with a result or without. -/
def final : EStateM.Result ε σ α → σ
  | .ok _ s => s
  | .error _ s => s

/-- However the program ends, its last state is related to its first one. -/
def Preserves (R : σ → σ → Prop) (x : EStateM ε σ α) : Prop :=
  ∀ s, R s (final (x s))

theorem Preserves.ok {x : EStateM ε σ α} (h : Preserves R x) {s s' : σ} {a : α}
    (hx : x s = .ok a s') : R s s' := by
  have := h s
  rwa [hx] at this

theorem Preserves.error {x : EStateM ε σ α} (h : Preserves R x) {s s' : σ} {e : ε}
    (hx : x s = .error e s') : R s s' := by
  have := h s
  rwa [hx] at this

theorem preserves_pure (refl : ∀ s, R s s) (a : α) : Preserves R (pure a : EStateM ε σ α) :=
  refl

theorem preserves_throw (refl : ∀ s, R s s) (e : ε) : Preserves R (throw e : EStateM ε σ α) :=
  refl

theorem preserves_get (refl : ∀ s, R s s) : Preserves R (get : EStateM ε σ σ) :=
  refl

theorem preserves_modify {f : σ → σ} (h : ∀ s, R s (f s)) :
    Preserves R (modify f : EStateM ε σ PUnit) :=
  h

theorem preserves_modifyGet {f : σ → α × σ} (h : ∀ s, R s (f s).2) :
    Preserves R (modifyGet f : EStateM ε σ α) :=
  h

theorem Preserves.andThen (trans : ∀ s₁ s₂ s₃, R s₁ s₂ → R s₂ s₃ → R s₁ s₃)
    {x : EStateM ε σ α} {f : α → EStateM ε σ β} (hx : Preserves R x)
    (hf : ∀ a, Preserves R (f a)) : Preserves R (x >>= f) := by
  intro s
  show R s (final (EStateM.bind x f s))
  unfold EStateM.bind
  have hs := hx s
  cases h : x s with
  | ok a s₁ =>
    rw [h] at hs
    exact trans _ _ _ hs (hf a s₁)
  | error e s₁ =>
    rw [h] at hs
    exact hs

theorem Preserves.mono {R' : σ → σ → Prop} {x : EStateM ε σ α} (hx : Preserves R x)
    (h : ∀ s s', R s s' → R' s s') : Preserves R' x :=
  fun s => h _ _ (hx s)

end Outcome

open Outcome

variable {ω : Type}

/-- What an evaluation can do to a machine: the heap goes on, the host has its world changed, and
disposals are logged. A relation that all this has is preserved by evaluations. -/
theorem Eval.closed_preserves {R : Machine ω → Machine ω → Prop} (refl : ∀ m, R m m)
    (trans : ∀ m₁ m₂ m₃, R m₁ m₂ → R m₂ m₃ → R m₁ m₃)
    (heap : ∀ m h, m.heap.Evolves h → R m { m with heap := h })
    (world : ∀ m w, R m { m with world := w }) (log : ∀ m name, R m (m.logDisposal name)) :
    Closed (ω := ω) fun x => Preserves R x where
  pure := preserves_pure refl
  throw := preserves_throw refl
  andThen := Preserves.andThen trans
  newObject className fields := preserves_modifyGet fun m =>
    heap m _ (.newObject m.heap className fields)
  newIterator c := preserves_modifyGet fun m => heap m _ (.newIterator m.heap c)
  read s := by
    refine (preserves_get refl).andThen trans fun m => ?_
    split
    · exact preserves_pure refl _
    · exact preserves_throw refl _
  callHost name args m := by
    unfold callHost
    cases m.host.call name args m.world with
    | ok v w => exact world m w
    | error e w => exact world m w
  dispose v := by
    have hlog : Preserves R (modify (·.logDisposal v.disposalName) : Eval ω PUnit) :=
      preserves_modify fun m => log m _
    have hend := hlog.andThen trans fun _ => preserves_pure refl Value.void
    unfold dispose
    split
    · exact preserves_pure refl _
    · refine Preserves.andThen trans (preserves_modify fun m => ?_) fun _ => hend
      exact heap m _ (.setCursor fun _ hv => hv)
    · exact hend
  moveNext id := preserves_modifyGet fun m =>
    heap m _ (.setCursor (m.heap.cursor id).items_moveNext)
  current id := by
    refine (preserves_get refl).andThen trans fun m => ?_
    split
    · exact preserves_pure refl _
    · exact preserves_throw refl _

/-- The machine that the body of a handler starts from. -/
def Handler.enter (h : Handler Node) (exception : Value) (m : Machine ω) : Machine ω :=
  (match h.binding with
    | some s => m.assign s exception
    | none => m).beginHandling exception

/-- The arm that is selected is one of the switch. -/
theorem Node.select_mem {v : Value} {arms : List (Arm Node)} {m m' : Machine ω} {n : Node}
    (h : Exec.select v arms m = .ok (some n) m') : n ∈ arms.map Arm.body := by
  induction arms generalizing m with
  | nil => cases h
  | cons a arms ih =>
    obtain ⟨found, m₁, hfound, h⟩ := andThen_ok.mp h
    cases found with
    | true =>
      cases h
      exact List.mem_cons_self
    | false => exact List.mem_cons_of_mem _ (ih h)

namespace Exec

theorem placeOf_subset (l : LabelId) (body : List Node) : placeOf l body ⊆ body :=
  fun _ h => (List.dropWhile_sublist _).subset h

/-- A region is entered in its cleanup for a place in there that is not in the body. -/
theorem entrance_cleanup {body n : Node} {cleanup : Option Node} {d : Option Descent}
    (h : entrance body cleanup d = .cleanup n) :
    cleanup = some n ∧
      ∃ s, d = some s ∧ body.defines s.target = false ∧ n.defines s.target = true := by
  unfold entrance at h
  split at h
  · cases h
  next s =>
    split at h
    · cases h
    next hbody =>
      split at h
      next hn =>
        cases h
        obtain ⟨hcleanup, hdefines⟩ := Option.filter_eq_some_iff.mp hn
        exact ⟨hcleanup, s, rfl, Bool.eq_false_iff.mpr hbody, hdefines⟩
      next => cases h

theorem handle_eq {run : Runner ω} (h : Handler Node) (exception : Value) (m : Machine ω) :
    handle run h exception m =
      match run h.body none (h.enter exception m) with
      | .ok flow m => .ok flow m.endHandling
      | .error e m => .error e m.endHandling := rfl

/-! ## The parts of an execution -/

section

variable {R : Machine ω → Machine ω → Prop} (refl : ∀ m, R m m)
  (trans : ∀ m₁ m₂ m₃, R m₁ m₂ → R m₂ m₃ → R m₁ m₃) {run : Runner ω}

theorem tick_preserves (steps : ∀ m k, R m { m with steps := k }) :
    Preserves R (tick : Exec ω Unit) := by
  intro m
  unfold tick
  dsimp only
  split <;> exact steps m _

include trans in
theorem evaluating_preserves {α : Type} {x : Eval ω α} {next : α → Exec ω Flow}
    (hx : Preserves R x) (hnext : ∀ a m m', x m = .ok a m' → Preserves R (next a)) :
    Preserves R (evaluating x next) := by
  intro m
  unfold evaluating
  cases h : x m with
  | ok a m₁ => exact trans _ _ _ (hx.ok h) (hnext a m m₁ h m₁)
  | error e m₁ =>
    have := hx.error h
    cases e <;> exact this

include refl trans

theorem sequence_preserves {body rest : List Node}
    (hbody : ∀ n ∈ body, ∀ d, Preserves R (run n d))
    (hrest : ∀ n ∈ rest, ∀ d, Preserves R (run n d)) (fuel : Nat) (d : Option Descent)
    (last : Value) : Preserves R (sequence run body fuel rest d last) := by
  induction fuel generalizing rest d last with
  | zero =>
    cases rest with
    | nil => exact preserves_pure refl _
    | cons n rest => exact preserves_throw refl _
  | succ fuel ih =>
    cases rest with
    | nil => exact preserves_pure refl _
    | cons n rest =>
      obtain ⟨hn, hrest⟩ := List.forall_mem_cons.mp hrest
      refine (hn d).andThen trans fun flow => ?_
      split
      · exact ih hrest _ _
      · exact preserves_pure refl _
      · split
        · exact preserves_pure refl _
        · exact ih (fun n hn => hbody n (placeOf_subset _ _ hn)) _ _

theorem rounds_preserves {body : Node} (hrun : ∀ d, Preserves R (run body d)) (leave next : Label)
    (fuel : Nat) (d : Option Descent) : Preserves R (rounds run body leave next fuel d) := by
  induction fuel generalizing d with
  | zero => exact preserves_throw refl _
  | succ fuel ih =>
    refine (hrun d).andThen trans fun flow => ?_
    split
    · exact ih _
    · exact preserves_pure refl _
    · split
      · exact preserves_pure refl _
      · split
        · exact ih _
        · split
          · exact ih _
          · exact preserves_pure refl _

theorem arms_preserves {bodies : List Node} {first : Option Node}
    (hbodies : ∀ n ∈ bodies, ∀ d, Preserves R (run n d))
    (hfirst : ∀ n ∈ first, ∀ d, Preserves R (run n d)) (fuel : Nat) (d : Option Descent) :
    Preserves R (arms run bodies fuel first d) := by
  induction fuel generalizing first d with
  | zero =>
    cases first with
    | none => exact preserves_pure refl _
    | some n => exact preserves_throw refl _
  | succ fuel ih =>
    cases first with
    | none => exact preserves_pure refl _
    | some n =>
      refine (hfirst n rfl d).andThen trans fun flow => ?_
      split
      · split
        next l v n' hfound =>
          have hn' := hbodies n' (List.mem_of_find?_eq_some hfound)
          exact ih (fun _ hn => Option.some.inj hn ▸ hn') _
        next => exact preserves_pure refl _
      · exact preserves_pure refl _

omit refl trans in
/-- What a handler pushes it takes back, on every way out. -/
theorem handle_preserves {h : Handler Node} (hrun : Preserves R (run h.body none))
    (around : ∀ v m m', R (h.enter v m) m' → R m m'.endHandling) (exception : Value) :
    Preserves R (handle run h exception) := by
  intro m
  have hbody := around exception m _ (hrun (h.enter exception m))
  rw [handle_eq]
  cases hr : run h.body none (h.enter exception m) with
  | ok flow m' =>
    rw [hr] at hbody
    exact hbody
  | error e m' =>
    rw [hr] at hbody
    exact hbody

omit trans in
theorem dispatch_preserves {handlers : List (Handler Node)}
    (hrun : ∀ h ∈ handlers, Preserves R (run h.body none))
    (around : ∀ h ∈ handlers, ∀ v m m', R (h.enter v m) m' → R m m'.endHandling) (flow : Flow) :
    Preserves R (dispatch run handlers flow) := by
  unfold dispatch
  split
  · split
    next h hfound =>
      have hh := List.mem_of_find?_eq_some hfound
      exact handle_preserves (hrun h hh) (around h hh) _
    next => exact preserves_pure refl _
  · exact preserves_pure refl _

theorem cleaning_preserves {cleanup : Option Node}
    (hrun : ∀ n ∈ cleanup, ∀ d, Preserves R (run n d)) (pending : Flow) :
    Preserves R (cleaning run cleanup pending) := by
  unfold cleaning
  split
  · exact preserves_pure refl _
  · refine (hrun _ rfl _).andThen trans fun flow => ?_
    split
    · exact preserves_pure refl _
    · exact preserves_pure refl _

theorem region_preserves {body : Node} {handlers : List (Handler Node)} {cleanup : Option Node}
    (hbody : ∀ d, Preserves R (run body d))
    (hhandlers : ∀ h ∈ handlers, Preserves R (run h.body none))
    (hcleanup : ∀ n ∈ cleanup, ∀ d, Preserves R (run n d))
    (around : ∀ h ∈ handlers, ∀ v m m', R (h.enter v m) m' → R m m'.endHandling) (fuel : Nat)
    (d : Option Descent) : Preserves R (region run body handlers cleanup fuel d) := by
  induction fuel generalizing d with
  | zero => exact preserves_throw refl _
  | succ fuel ih =>
    have hclean := cleaning_preserves refl trans hcleanup
    unfold region
    split
    next => exact preserves_throw refl _
    next n start => exact hcleanup n (entrance_cleanup start).1 d
    next =>
      refine (hbody d).andThen trans fun flow => ?_
      refine (dispatch_preserves refl hhandlers around flow).andThen trans fun flow => ?_
      split
      · split
        · exact ih _
        · exact hclean _
      · exact hclean _

end

end Exec

namespace Node

open Exec

/-- The nodes with the property do nothing by themselves that does not have the relation. -/
structure Carries (R : Machine ω → Machine ω → Prop) (P : Node → Prop) : Prop where
  refl : ∀ m, R m m
  trans : ∀ m₁ m₂ m₃, R m₁ m₂ → R m₂ m₃ → R m₁ m₃
  steps : ∀ m k, R m { m with steps := k }
  eval : ∀ e : Expr, Preserves R (e.eval : Eval ω Value)
  choice : ∀ (value : Expr) (arms : List (Arm Node)),
    Preserves R (value.eval >>= fun v => select v arms : Eval ω (Option Node))
  assign : ∀ target value, P (.assign target value) → ∀ m v, R m (m.assign target v)
  declare : ∀ locals body, P (.block locals body) → ∀ m, R m (m.declare locals)
  handle : ∀ body handlers cleanup, P (.attempt body handlers cleanup) → ∀ h ∈ handlers,
    ∀ v m m', R (h.enter v m) m' → R m m'.endHandling
  /-- What is below a node with the property has it. -/
  children : ∀ n, P n → ∀ c ∈ n.children, P c

variable {R : Machine ω → Machine ω → Prop} {P : Node → Prop}

/-- The execution of a node with the property ends in a machine that has the relation to the one in
which it has started. -/
theorem execWithin_preserves (hR : Carries R P) (fuel : Nat) {n : Node} (hn : P n)
    (d : Option Descent) : Preserves R (n.execWithin fuel d : Exec ω Flow) := by
  have pure : ∀ flow : Flow, Preserves R (pure flow : Exec ω Flow) := preserves_pure hR.refl
  induction fuel generalizing n d with
  | zero => exact preserves_throw hR.refl _
  | succ fuel ih =>
    have below : ∀ c ∈ n.children, ∀ d, Preserves R (c.execWithin fuel d : Exec ω Flow) :=
      fun c hc => ih (hR.children n hn c hc)
    refine (tick_preserves hR.steps).andThen hR.trans fun _ => ?_
    cases n with
    | nop => exact pure _
    | eval e => exact evaluating_preserves hR.trans (hR.eval e) fun _ _ _ _ => pure _
    | assign target value =>
      refine evaluating_preserves hR.trans (hR.eval value) fun v _ _ _ => ?_
      have hassign : Preserves R (modify (·.assign target v) : Exec ω PUnit) :=
        preserves_modify fun m => hR.assign target value hn m v
      exact hassign.andThen hR.trans fun _ => pure _
    | block locals body =>
      have hdeclare : Preserves R (modify (·.declare locals) : Exec ω PUnit) :=
        preserves_modify (hR.declare locals body hn)
      refine hdeclare.andThen hR.trans fun _ => ?_
      split
      · exact sequence_preserves hR.refl hR.trans below below _ _ _
      · refine sequence_preserves hR.refl hR.trans below (fun c hc => ?_) _ _ _
        exact below c (placeOf_subset _ _ hc)
    | branch test yes no =>
      have hyes := below yes (by simp [children])
      have hno := below no (by simp [children])
      cases d with
      | some s =>
        dsimp only
        split
        · exact hyes _
        · exact hno _
      | none =>
        refine evaluating_preserves hR.trans (hR.eval test) fun v _ _ _ => ?_
        split
        · exact hyes _
        · exact hno _
        · exact preserves_throw hR.refl _
    | loop body leave next =>
      exact rounds_preserves hR.refl hR.trans (below body (by simp [children])) _ _ _ _
    | label target default => exact pure _
    | goto target value =>
      cases value with
      | none => exact pure _
      | some e => exact evaluating_preserves hR.trans (hR.eval e) fun _ _ _ _ => pure _
    | switch value arms default =>
      cases d with
      | some s =>
        refine arms_preserves hR.refl hR.trans below (fun c hc => ?_) _ _
        exact below c (List.mem_of_find?_eq_some hc)
      | none =>
        refine evaluating_preserves hR.trans (hR.choice value arms) fun found m m' hfound => ?_
        refine arms_preserves hR.refl hR.trans below (fun c hc => below c ?_) _ _
        cases found with
        | none => exact List.mem_append_right _ (Option.mem_toList.mpr hc)
        | some body =>
          obtain rfl := Option.some.inj hc
          obtain ⟨v, m₁, -, hselect⟩ := andThen_ok.mp hfound
          exact List.mem_append_left _ (select_mem hselect)
    | attempt body handlers cleanup =>
      refine region_preserves hR.refl hR.trans (below body (by simp [children])) (fun h hh => ?_)
        (fun c hc => below c ?_) (hR.handle body handlers cleanup hn) _ _
      · exact below h.body
          (List.mem_cons_of_mem _ (List.mem_append_left _ (List.mem_map_of_mem hh))) none
      · exact List.mem_cons_of_mem _ (List.mem_append_right _ (Option.mem_toList.mpr hc))
    | throw e => exact evaluating_preserves hR.trans (hR.eval e) fun _ _ _ _ => pure _
    | rethrow =>
      refine (preserves_get hR.refl).andThen hR.trans fun m => ?_
      split
      · exact pure _
      · exact preserves_throw hR.refl _

end Node

end StructuredFlow
