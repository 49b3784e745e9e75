import StructuredFlow.Proofs.Disposals
import StructuredFlow.Proofs.Sessions

/-
  Resources are released. The region of a resource is the only node of a program that binds the
  resource's variable, and without captures nothing outside of the region speaks of it. If the body
  does not assign it either, a run is made up of sessions of the region: each time the producer
  gives a value, the region disposes of that value once, and of nothing else
  (`Builder.ReachableBy.resources_released`). What the region disposes of in the end is what the
  variable holds then, so a body that assigns it loses the value of the producer
  (`Builder.resource_lost`).
-/

namespace StructuredFlow

variable {ω : Type}

open Exec Outcome

namespace Node

/-- The body of a region does not hold the region. -/
theorem withCleanup_not_mem_subnodes (s : Symbol) (producer : Expr) (body : Node) :
    withCleanup s producer body ∉ body.subnodes := by
  intro h
  have hle := sizeOf_le_of_mem_subnodes h
  simp only [withCleanup, block.sizeOf_spec, attempt.sizeOf_spec, List.cons.sizeOf_spec] at hle
  omega

end Node

/-- What is no parameter holds the zero of its type when a run begins. -/
theorem Machine.holds_prepare {params : List Symbol} {s : Symbol}
    (hs : s.id ∉ params.map Symbol.id) (m : Machine ω) (args : List Value) :
    (m.prepare params args).holds s = Value.zero s.ty := by
  have hassigns : ∀ (entries : List (Symbol × Value)) (m : Machine ω),
      (∀ p ∈ entries, p.1.id ≠ s.id) →
        (entries.foldl (fun m p => m.assign p.1 p.2) m).holds s = m.holds s := by
    intro entries
    induction entries with
    | nil => exact fun _ _ => rfl
    | cons p entries ih =>
      intro m h
      obtain ⟨hp, h⟩ := List.forall_mem_cons.mp h
      exact (ih _ h).trans (holds_assign_of_ne hp)
  refine (hassigns _ m.restart fun p hp hid => hs ?_).trans rfl
  exact hid ▸ List.mem_map_of_mem (List.of_mem_zip hp).1

namespace Builder

variable {b : Builder} {a : Artifact} {resource : Symbol} {producer : Expr} {body : Node}

/-- Outside of the region of a resource all nodes spare it. -/
theorem Reachable.spares_outside (hb : b.Reachable) (hcaptures : b.options.allowCaptures = false)
    (ha : b.assemble = .ok a) (hregion : Node.withCleanup resource producer body ∈ a.body.subnodes)
    {around : List Node} {hs : List (Handler Node)} {n : Node} (h : a.body.Stands around hs n)
    (haround : Node.withCleanup resource producer body ∉ around)
    (hne : n ≠ Node.withCleanup resource producer body) : n.Spares resource.id := by
  have hbinds : resource ∈ (Node.withCleanup resource producer body).binds :=
    List.mem_singleton_self resource
  have hmentions : ¬ n.Mentions resource.id := fun hid =>
    haround (hb.inside_of_mentions hcaptures ha hregion rfl hbinds h hid)
  constructor
  · exact fun target value hn hid => hmentions (.inr ⟨target, value, hn, hid⟩)
  · intro x hx hid
    have hnodup := hb.built.body_binders_nodup ha
    exact hne (Node.binder_unique hnodup h.mem_subnodes hregion hx hbinds hid)
  · rintro x rfl hid
    exact hmentions (.inl ⟨_, List.mem_singleton_self _, x, List.mem_singleton_self x, hid⟩)

/-- The nodes of a region's body spare the resource, if none of them assigns it and no fragment
disposes of anything. -/
theorem Built.spares_inside {F : Fragment → Prop} (hb : b.Built F)
    (hF : ∀ f, F f → ¬ f.body.Has .dispose) (ha : b.assemble = .ok a)
    (hregion : Node.withCleanup resource producer body ∈ a.body.subnodes)
    (hassigns : ∀ n ∈ body.subnodes, ∀ target value, n = .assign target value →
      target.id ≠ resource.id) {n : Node} (hn : n ∈ body.subnodes) : n.Spares resource.id := by
  have hinside : body ∈ (Node.withCleanup resource producer body).subnodes := by
    refine Node.mem_subnodes_of_mem_children (c := .attempt body [] (some (Node.disposal resource)))
      (List.mem_cons_of_mem _ (List.mem_singleton_self _)) ?_
    exact Node.mem_subnodes_of_mem_children List.mem_cons_self (Node.self_mem_subnodes body)
  constructor
  · exact hassigns n hn
  · intro x hx hid
    have hmem := Node.mem_subnodes_trans hregion (Node.mem_subnodes_trans hinside hn)
    have heq := Node.binder_unique (hb.body_binders_nodup ha) hmem hregion hx
      (List.mem_singleton_self resource) hid
    exact Node.withCleanup_not_mem_subnodes resource producer body (heq ▸ hn)
  · rintro x rfl hid
    refine hb.not_disposed hF ha hregion hn ?_
    exact hid ▸ List.mem_singleton_self x.id

/-- For the variable of a region whose body spares it, a run is made up of sessions. -/
theorem Reachable.traces_sessions (hb : b.Reachable) (hcaptures : b.options.allowCaptures = false)
    (ha : b.assemble = .ok a) (hregion : Node.withCleanup resource producer body ∈ a.body.subnodes)
    (hbody : ∀ n ∈ body.subnodes, n.Spares resource.id) {args : List Value} {m m' : Machine ω}
    {calls : List (Call ω)} {flow : Flow} (h : a.Traces args m calls (.ok flow m')) :
    Sessions (∃ l, body.defines l = true) (Value.zero resource.ty)
      (calls.flatMap (Call.events resource)) (m'.holds resource) := by
  -- The induction goes over what stands outside of the region, down to the region.
  let outside (n : Node) : Prop := ∃ around hs,
    a.body.Stands around hs n ∧ Node.withCleanup resource producer body ∉ around
  have hparam := hb.built.not_param ha hregion (List.mem_singleton_self resource)
  have hentry : (Turn.tail (a.entry args m)).Among outside resource (Value.zero resource.ty) :=
    .ofTail ⟨[], [], .here, List.not_mem_nil⟩ (Machine.holds_prepare hparam m args)
  refine Turn.Traces.made_up (S := Sessions (∃ l, body.defines l = true))
    (B := (· = Node.withCleanup resource producer body)) (fun _ => .none) Sessions.trans ?_ ?_
    hentry h.2
  · rintro n ⟨around, hs, hstands, haround⟩
    by_cases hn : n = Node.withCleanup resource producer body
    · exact .inl hn
    refine .inr ⟨hb.spares_outside hcaptures ha hregion hstands haround hn, fun c hc => ?_⟩
    have haround' : Node.withCleanup resource producer body ∉ n :: around :=
      fun h => (List.mem_cons.mp h).elim (fun h => hn h.symm) haround
    rcases Node.mem_children_iff.mp hc with hpart | ⟨k, hk, rfl⟩
    · exact ⟨_, _, hstands.part hpart, haround'⟩
    · exact ⟨_, _, hstands.handler hk, haround'⟩
  · rintro ⟨n, d, m₀⟩ calls flow m₁ rfl htraces
    exact Node.withCleanup_sessions hbody htraces

/-- Resources are released. In a program that captures nothing, and whose fragments dispose of
nothing, let the body of a resource's region not assign the resource. Then a run that completes is
made up of sessions of the region. Unless a jump to a label in the body enters the region past the
producer, what the region disposes of is each value that the producer has given, once and before the
producer gives the next one, and nothing else. -/
theorem ReachableBy.resources_released
    (hb : b.ReachableBy fun f => ¬ f.body.Has .dispose)
    (hcaptures : b.options.allowCaptures = false) (ha : b.assemble = .ok a) {outer : Chain}
    {s : Scope} {i : Nat} {scope : Scope} (hs : b.top.Within outer s)
    (hi : s.stmts[i]? = some (.resource resource producer scope)) :
    ∃ B : Block, b.Translates a s i (Node.withCleanup resource producer B.collapse) ∧
      ((∀ n ∈ B.collapse.subnodes, ∀ target value, n = .assign target value →
          target.id ≠ resource.id) →
        ∀ (args : List Value) (m m' : Machine ω), a.Completes args m m' →
          ∃ calls flow m₁, a.Traces args m calls (.ok flow m₁) ∧
            m' = m₁.metered m'.steps m'.stepLimit ∧
            Sessions (∃ l, B.collapse.defines l = true) (Value.zero resource.ty)
              (calls.flatMap (Call.events resource)) (m'.holds resource) ∧
            ((∀ l, B.collapse.defines l = false) →
              .reentered ∉ calls.flatMap (Call.events resource)) ∧
            (.reentered ∉ calls.flatMap (Call.events resource) →
              calls.flatMap (Call.events resource) =
                ((calls.flatMap (Call.events resource)).filterMap RegionEvent.acquired?).flatMap
                  fun v => .acquired v :: v.disposals)) := by
  obtain ⟨n, t, htranslates, ht, hbecomes⟩ := exists_translates ha hs hi
  cases hbecomes with
  | resource resource' producer' B =>
    simp only [Stmt.map, Stmt.resource.injEq] at ht
    obtain ⟨rfl, rfl, -⟩ := ht
    have hregion : Node.withCleanup resource producer B.collapse ∈ a.body.subnodes :=
      htranslates.choose_spec.2.2
    refine ⟨B, htranslates, fun hassigns args m m' hrun => ?_⟩
    have hbody : ∀ n ∈ B.collapse.subnodes, n.Spares resource.id := fun n hn =>
      hb.built.spares_inside (fun _ h => h) ha hregion hassigns hn
    obtain ⟨calls, flow, m₁, htraces, hm', -⟩ := hb.reachable.run_traces ha hrun
    have hsessions := hb.reachable.traces_sessions hcaptures ha hregion hbody htraces
    refine ⟨calls, flow, m₁, htraces, hm', ?_, fun hlabels => ?_, hsessions.eq_of_not_reentered⟩
    · rw [hm']
      exact hsessions
    · refine hsessions.not_reentered ?_
      rintro ⟨l, hl⟩
      exact Bool.false_ne_true ((hlabels l).symm.trans hl)
  | _ => cases ht

/-- The region of a resource with an empty body. -/
theorem resource_released_once :
    ∃ (b : Builder) (a : Artifact) (f : Symbol) (v : Value) (m m' : Machine Unit)
      (calls : List (Call Unit)) (flow : Flow) (m₁ : Machine Unit),
      (b.ReachableBy fun f => ¬ f.body.Has .dispose) ∧ b.options.allowCaptures = false ∧
      b.assemble = .ok a ∧ a.run [] m = .ok .void m' ∧
      a.Traces [] m calls (.ok flow m₁) ∧ m' = m₁.metered m'.steps m'.stepLimit ∧ v ≠ .null ∧
      calls.flatMap (Call.events f) = [.acquired v, .disposed v] := by
  let f : Symbol := ⟨0, "f", .object "File"⟩
  let producer : Expr := .construct (.object "File") []
  let a : Artifact := ⟨"f", [], .typed 0 .void,
    .block [] [.withCleanup f producer .nop, .label (.typed 0 .void) none]⟩
  have hproducer : ¬ producer.Has .dispose := Expr.not_has_of_leaf rfl nofun
  obtain ⟨b, hb, hcaptures, hassemble, hB, hi⟩ : ∃ b : Builder,
      (b.ReachableBy fun f => ¬ f.body.Has .dispose) ∧ b.options.allowCaptures = false ∧
        b.assemble = .ok a ∧
        b.top.assemble b.label? Block.collapse = .ok ⟨[], [.withCleanup f producer .nop]⟩ ∧
        b.top.stmts[0]? = some (.resource f producer ⟨⟨1, .plain, [], [f]⟩, []⟩) := by
    obtain ⟨b, hb⟩ : ∃ b, Builder.create ⟨"f", false⟩ [] .void = .ok b := ⟨_, rfl⟩
    have husing : ReachableBy (fun f => ¬ f.body.Has .dispose) _ :=
      @ReachableBy.opening _ b (.create hb) 0 (.using "f" (.object "File") ⟨[], producer⟩)
        (List.forall_mem_singleton.mpr hproducer)
    cases hb
    exact ⟨_, husing, rfl, rfl, rfl, rfl⟩
  let m : Machine Unit := .new .empty () 20
  obtain ⟨calls, flow, m₁, htraces, hlength, hresult, hacquired⟩ :
      ∃ calls flow m₁, a.Traces [] m calls (.ok flow m₁) ∧ calls.length ≤ m.stepLimit ∧
        a.result flow = .ok .void ∧
        (calls.flatMap (Call.events f)).filterMap RegionEvent.acquired? =
          [.object 0 "File" []] := by
    refine ⟨_, _, _, ⟨rfl, .tail (.call (.call .done (.call (.call .done
      (.call (.tail .done) .done)) .done)) (.call .done .done))⟩, ?_, rfl, rfl⟩
    show 8 ≤ 20
    decide
  obtain ⟨m', hrun, -⟩ := htraces.run_ok hlength hresult
  obtain ⟨B, ⟨B', hB', hregion, -⟩, hreleased⟩ :=
    @ReachableBy.resources_released Unit _ _ f producer hb hcaptures hassemble [] _ 0 _ .here hi
  obtain rfl := Except.ok.inj (hB'.symm.trans hB)
  have hbody : B.collapse = .nop := by
    generalize B.collapse = body at hregion
    cases hregion
    rfl
  rw [hbody] at hreleased
  have hassigns : ∀ n ∈ Node.nop.subnodes, ∀ target value, n = .assign target value →
      target.id ≠ f.id := by
    rintro n hn target value rfl
    cases List.mem_singleton.mp hn
  obtain ⟨calls', flow', m₁', htraces', hm', -, hreentered, hevents⟩ :=
    hreleased hassigns [] m m' (.inl ⟨_, hrun⟩)
  obtain ⟨rfl, hreport⟩ := htraces.2.unique htraces'.2
  cases hreport
  refine ⟨b, a, f, .object 0 "File" [], m, m', calls, flow, m₁, hb, hcaptures, hassemble, hrun,
    htraces, hm', nofun, ?_⟩
  rw [hevents (hreentered fun _ => rfl), hacquired]
  rfl

/-- A body that assigns the resource: what the producer has given is not disposed of. -/
theorem resource_lost :
    ∃ (b : Builder) (a : Artifact) (f : Symbol) (producer : Expr) (scope : Scope) (v w : Value)
      (m m' : Machine Unit) (calls : List (Call Unit)) (flow : Flow) (m₁ : Machine Unit),
      (b.ReachableBy fun f => ¬ f.body.Has .dispose) ∧ b.options.allowCaptures = false ∧
      b.assemble = .ok a ∧ b.top.stmts[0]? = some (.resource f producer scope) ∧
      a.run [] m = .ok (.int 0) m' ∧ m'.disposeLog = #["B"] ∧
      a.Traces [] m calls (.ok flow m₁) ∧ m'.metered 0 0 = m₁.metered 0 0 ∧ v ≠ .null ∧ v ≠ w ∧
      calls.flatMap (Call.events f) = [.acquired v, .acquired w, .disposed w] := by
  let f : Symbol := ⟨0, "f", .any⟩
  let make (name : String) : Expr := .construct (.object name) []
  let assign : Node := .assign f (make "B")
  let leave : Node := .goto (.typed 0 .int) (some (.const (.int 0)))
  let a : Artifact := ⟨"f", [], .typed 0 .int,
    .block [] [.block [] [.withCleanup f (make "A") assign, leave],
      .label (.typed 0 .int) (some (.int 0))]⟩
  have hmake (name : String) : ¬ (make name).Has .dispose := Expr.not_has_of_leaf rfl nofun
  have hzero : ¬ (Expr.const (.int 0)).Has .dispose := Expr.not_has_of_leaf rfl nofun
  obtain ⟨b, hb, hcaptures, hassemble, hi⟩ : ∃ b : Builder,
      (b.ReachableBy fun f => ¬ f.body.Has .dispose) ∧ b.options.allowCaptures = false ∧
        b.assemble = .ok a ∧
        b.top.stmts[0]? = some (.resource f (make "A") ⟨⟨1, .plain, [], [f]⟩, [.node assign]⟩) := by
    obtain ⟨b, hb⟩ : ∃ b, Builder.create ⟨"f", false⟩ [] .int = .ok b := ⟨_, rfl⟩
    have husing : ReachableBy (fun f => ¬ f.body.Has .dispose) _ :=
      @ReachableBy.opening _ b (.create hb) 0 (.using "f" .any ⟨[], make "A"⟩)
        (List.forall_mem_singleton.mpr (hmake "A"))
    have hassign := @ReachableBy.statement _ _ husing 1 (.assign "f" .any ⟨[], make "B"⟩)
      (List.forall_mem_singleton.mpr (hmake "B"))
    have hreturn := @ReachableBy.statement _ _ hassign 0 (.returnValue .int ⟨[], .const (.int 0)⟩)
      (List.forall_mem_singleton.mpr hzero)
    cases hb
    exact ⟨_, hreturn, rfl, rfl, rfl⟩
  let m : Machine Unit := .new .empty () 20
  obtain ⟨calls, flow, m₁, htraces, hlength, hresult, hlog, hevents⟩ :
      ∃ calls flow m₁, a.Traces [] m calls (.ok flow m₁) ∧ calls.length ≤ m.stepLimit ∧
        a.result flow = .ok (.int 0) ∧ m₁.disposeLog = #["B"] ∧
        calls.flatMap (Call.events f) = [.acquired (.object 0 "A" []),
          .acquired (.object 1 "B" []), .disposed (.object 1 "B" [])] := by
    refine ⟨_, _, _, ⟨rfl, .tail (.call (.call (.call .done (.call (.call .done
      (.call (.tail .done) .done)) .done)) (.call .done .done)) (.call .done .done))⟩,
      ?_, rfl, rfl, rfl⟩
    show 10 ≤ 20
    decide
  obtain ⟨m', hrun, hm'⟩ := htraces.run_ok hlength hresult
  have hlog' : m'.disposeLog = #["B"] := (congrArg Machine.disposeLog hm').trans hlog
  exact ⟨b, a, f, make "A", _, .object 0 "A" [], .object 1 "B" [], m, m', calls, flow, m₁, hb,
    hcaptures, hassemble, hi, hrun, hlog', htraces, hm', nofun, by simp, hevents⟩

end Builder

end StructuredFlow
