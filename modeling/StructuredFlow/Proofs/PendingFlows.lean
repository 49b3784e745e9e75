import StructuredFlow.Proofs.CollapseTransparent
import StructuredFlow.Proofs.GuardedRegions
import StructuredFlow.Proofs.InnermostLoop

/-
  What a cleanup does to the flow that is pending. A flow that is a jump was raised by a `goto`
  (`Turn.Traces.jump_source`). So if the jumps of a cleanup stay inside of it and nothing is raised,
  the cleanup can only end with a jump to a place that it holds itself; a block, a loop and a switch
  take such a jump, and so does not a cleanup that is a lone conditional or a lone guarded region.
  With this exception the pending flow goes on (`Builder.Reachable.pending_continues`). The exception
  is real: the jump of the cleanup then takes the place of an exception that is pending
  (`Builder.pending_lost_in_cleanup`).
-/

namespace StructuredFlow

variable {ω : Type}

open Exec

/-! ## Where jumps come from -/

/-- The call is that of a `goto`, and it jumps to the label. -/
structure Call.JumpsTo (l : LabelId) (c : Call ω) : Prop where
  goto : ∃ target value, c.node = .goto target value ∧ target.id = l
  jumps : ∃ v m, c.begin = .done (.ok (.jump l v) m)

/-- The flow is a jump to the label. -/
def Flow.IsJump (l : LabelId) : Flow → Prop
  | .jump target _ => target = l
  | _ => False

/-- What a waiting node holds back is a jump to the label. -/
def Waiting.Holds (l : LabelId) : Waiting → Prop
  | .cleaning pending => pending.IsJump l
  | _ => False

/-- The turn is done with a jump to the label, or such a jump is pending in it. -/
def Turn.Holds (l : LabelId) : Turn ω → Prop
  | .done (.ok flow _) => flow.IsJump l
  | .call _ w => w.Holds l
  | _ => False

namespace Turn

variable {l : LabelId} {m : Machine ω} {d : Option Descent}

theorem Holds.of_reading {α : Type} {x : EStateM.Result EvalError (Machine ω) α}
    {next : α → Machine ω → Turn ω} (h : (reading x next).Holds l) :
    ∃ a m', (next a m').Holds l ∧ reading x next = next a m' := by
  unfold reading at h ⊢
  cases x with
  | ok a m' => exact ⟨a, m', h, rfl⟩
  | error e m' =>
    cases e <;> exact h.elim

theorem not_holds_row (body rest : List Node) (last : Value) :
    ¬(row body rest d last m).Holds l := by
  cases rest with
  | nil => exact id
  | cons n rest => exact id

theorem not_holds_arm (bodies : List Node) (body : Option Node) :
    ¬(arm bodies body d m).Holds l := by
  cases body with
  | none => exact id
  | some n => exact id

variable {body : Node} {handlers : List (Handler Node)} {cleanup : Option Node}

theorem not_holds_region : ¬(region body handlers cleanup d m).Holds l := by
  unfold region
  split <;> exact id

theorem Holds.of_clean {pending : Flow} (h : (clean cleanup pending m).Holds l) :
    pending.IsJump l := by
  cases cleanup with
  | none => exact h
  | some n => exact h

theorem Holds.of_leaveRegion {flow : Flow} (h : (leaveRegion body handlers cleanup flow m).Holds l) :
    flow.IsJump l := by
  cases flow with
  | normal v => exact h.of_clean
  | throw v => exact h.of_clean
  | jump l' v =>
    unfold leaveRegion at h
    dsimp only at h
    split at h
    · exact absurd h not_holds_region
    · exact h.of_clean

end Turn

/-- Only a `goto` begins with a jump. -/
theorem Call.JumpsTo.of_begin {l : LabelId} {c : Call ω} (h : c.begin.Holds l) : c.JumpsTo l := by
  obtain ⟨n, d, m⟩ := c
  cases n with
  | goto target value =>
    cases value with
    | none => exact h ▸ ⟨⟨target, none, rfl, rfl⟩, none, m, rfl⟩
    | some e =>
      obtain ⟨v, m', hnext, heq⟩ := Turn.Holds.of_reading h
      exact hnext ▸ ⟨⟨target, some e, rfl, rfl⟩, some v, m', heq⟩
  | nop => exact h.elim
  | eval e =>
    obtain ⟨v, m', hnext, -⟩ := Turn.Holds.of_reading h
    exact hnext.elim
  | assign target value =>
    obtain ⟨v, m', hnext, -⟩ := Turn.Holds.of_reading h
    exact hnext.elim
  | block locals body => exact absurd h (Turn.not_holds_row _ _ _)
  | branch test yes no =>
    cases d with
    | some s => exact h.elim
    | none =>
      obtain ⟨v, m', hnext, -⟩ := Turn.Holds.of_reading h
      cases v <;> exact hnext.elim
  | loop body leave next => exact h.elim
  | label target default => exact h.elim
  | switch value arms default =>
    cases d with
    | some s => exact absurd h (Turn.not_holds_arm _ _)
    | none =>
      obtain ⟨found, m', hnext, -⟩ := Turn.Holds.of_reading h
      exact absurd hnext (Turn.not_holds_arm _ _)
  | attempt body handlers cleanup => exact absurd h Turn.not_holds_region
  | throw e =>
    obtain ⟨v, m', hnext, -⟩ := Turn.Holds.of_reading h
    exact hnext.elim
  | rethrow =>
    unfold Call.begin at h
    dsimp only at h
    split at h
    · exact h.elim
    · exact h.elim

/-- A node that waits comes to a jump only if what it has waited for has, or if one is pending. -/
theorem Waiting.holds_of_resume {l : LabelId} {w : Waiting} {flow : Flow} {m : Machine ω}
    (h : (w.resume (.ok flow m)).Holds l) : flow.IsJump l ∨ w.Holds l := by
  cases w with
  | row body rest =>
    cases flow with
    | normal v => exact absurd h (Turn.not_holds_row _ _ _)
    | throw v => exact .inl h
    | jump l' v =>
      dsimp only [resume] at h
      cases hplace : placeOf l' body with
      | nil =>
        rw [hplace] at h
        exact .inl h
      | cons n rest =>
        rw [hplace] at h
        exact absurd h (Turn.not_holds_row _ _ _)
  | rounds body leave next =>
    cases flow with
    | normal v => exact h.elim
    | throw v => exact .inl h
    | jump l' v =>
      dsimp only [resume] at h
      split at h
      · exact h.elim
      · split at h
        · exact h.elim
        · split at h
          · exact h.elim
          · exact .inl h
  | arms bodies =>
    cases flow with
    | normal v => exact .inl h
    | throw v => exact .inl h
    | jump l' v =>
      dsimp only [resume] at h
      cases hfound : bodies.find? (·.defines l') with
      | none =>
        rw [hfound] at h
        exact .inl h
      | some n =>
        rw [hfound] at h
        exact absurd h (Turn.not_holds_arm _ _)
  | guarded body handlers cleanup =>
    cases flow with
    | normal v => exact .inl h.of_clean
    | jump l' v => exact .inl h.of_leaveRegion
    | throw v =>
      dsimp only [resume] at h
      cases hfound : handlers.find? (v.isInstanceOf ·.kind) with
      | none =>
        rw [hfound] at h
        exact .inl h.of_clean
      | some hd =>
        rw [hfound] at h
        exact h.elim
  | handling body handlers cleanup => exact .inl h.of_leaveRegion
  | cleaning pending =>
    cases flow with
    | normal v => exact .inr h
    | jump l' v => exact .inl h
    | throw v => exact .inl h

/-- A jump to which a turn comes was raised by a `goto` on the way, unless it was there before. -/
theorem Turn.Traces.jump_source {l : LabelId} {t : Turn ω} {calls : List (Call ω)} {flow : Flow}
    {m : Machine ω} (h : t.Traces calls (.ok flow m)) (hflow : flow.IsJump l) :
    (∃ c ∈ calls, c.JumpsTo l) ∨ t.Holds l := by
  generalize hr : (.ok flow m : Report ω) = r at h
  induction h generalizing flow m with
  | done =>
    subst hr
    exact .inr hflow
  | @tail c calls r inner ih =>
    rcases ih hflow hr with ⟨c', hc', hjumps⟩ | hbegin
    · exact .inl ⟨c', List.mem_cons_of_mem _ hc', hjumps⟩
    · exact .inl ⟨c, List.mem_cons_self, .of_begin hbegin⟩
  | @call c w calls r₁ calls' r inner later ihinner ihlater =>
    rcases ihlater hflow hr with ⟨c', hc', hjumps⟩ | hresume
    · exact .inl ⟨c', List.mem_cons_of_mem _ (List.mem_append_right _ hc'), hjumps⟩
    cases r₁ with
    | error e m₁ =>
      obtain ⟨m₂, heq⟩ := w.resume_error e m₁
      rw [heq] at hresume
      exact hresume.elim
    | ok flow₁ m₁ =>
      rcases Waiting.holds_of_resume hresume with hflow₁ | hw
      · rcases ihinner hflow₁ rfl with ⟨c', hc', hjumps⟩ | hbegin
        · exact .inl ⟨c', List.mem_cons_of_mem _ (List.mem_append_left _ hc'), hjumps⟩
        · exact .inl ⟨c, List.mem_cons_self, .of_begin hbegin⟩
      · exact .inr hw

/-- A jump with which a node ends was raised by a `goto` that it has executed. -/
theorem Node.Runs.jump_source {n : Node} {d : Option Descent} {m m' : Machine ω}
    {calls : List (Call ω)} {l : LabelId} {v : Option Value}
    (h : n.Runs d m calls (.jump l v) m') : ∃ c ∈ calls, c.JumpsTo l :=
  (Turn.Traces.jump_source h rfl).resolve_right id

/-! ## Jumps that stay inside -/

namespace Node

variable {root c d : Node}

/-- A node around a place is no part of what stands there. -/
theorem Stands.sizeOf_lt {around : List Node} {hs : List (Handler Node)}
    (h : root.Stands around hs c) (hd : d ∈ around) : sizeOf c < sizeOf d := by
  induction h with
  | here => exact absurd hd List.not_mem_nil
  | part _ mem ih =>
    have hlt := sizeOf_lt_of_mem_children (mem_children_iff.mpr (.inl mem))
    rcases List.mem_cons.mp hd with rfl | hd
    · exact hlt
    · exact hlt.trans (ih hd)
  | handler _ mem ih =>
    have hlt := sizeOf_lt_of_mem_children (mem_children_iff.mpr (.inr ⟨_, mem, rfl⟩))
    rcases List.mem_cons.mp hd with rfl | hd
    · exact hlt
    · exact hlt.trans (ih hd)

end Node

namespace Builder

variable {b : Builder} {a : Artifact} {n : Node} {d : Option Descent} {m m' : Machine ω}
  {calls : List (Call ω)} {flow : Flow}

/-- A jump with which a node of a program ends, to a label that has its place in the node, leads to
a mark there and not to a loop. -/
theorem Reachable.jump_marked (hb : b.Reachable) (ha : b.assemble = .ok a)
    (hn : n ∈ a.body.subnodes) {l : LabelId} {v : Option Value}
    (hjump : n.Runs d m calls (.jump l v) m') (hl : l ∈ n.places.map Label.id) :
    n.defines l = true := by
  obtain ⟨around, hs, hstands⟩ := Node.exists_stands hn
  obtain ⟨p, hp, htakes⟩ := hb.jump_taken ha hstands hjump.execWithin_ok
  have hnodup := hb.built.placed.places_nodup Block.closes_collapse ha
  obtain ⟨target, htarget, rfl⟩ := List.mem_map.mp hl
  obtain ⟨q, hq, htarget⟩ := List.mem_flatMap.mp htarget
  have hp' := hstands.around_mem_subnodes hp
  have hq' := Node.mem_subnodes_trans hn hq
  cases q with
  | label x default =>
    obtain rfl := List.mem_singleton.mp htarget
    exact Node.defines_iff.mpr ⟨_, hq, beq_self_eq_true _⟩
  | loop body leave next =>
    -- The node around that takes the jump is this loop, which is inside of the node.
    have hsize := hstands.sizeOf_lt hp
    have hinside := Node.sizeOf_le_of_mem_subnodes hq
    cases htakes with
    | place placed =>
      obtain ⟨c, hc, hdefines⟩ := placed
      obtain ⟨r, hr, hmarks⟩ := Node.defines_iff.mp hdefines
      cases r with
      | label x default =>
        have hr' := Node.mem_subnodes_trans hp' (Node.mem_subnodes_of_mem_children hc hr)
        have heq := Node.eq_of_place hnodup hr' hq' (List.mem_singleton_self _) htarget
          (beq_iff_eq.mp hmarks)
        cases heq
      | _ => exact absurd hmarks Bool.false_ne_true
    | leave isLeave =>
      have heq := Node.eq_of_place hnodup hp' hq' List.mem_cons_self htarget isLeave.symm
      rw [heq] at hsize
      omega
    | next isNext =>
      have heq := Node.eq_of_place hnodup hp' hq'
        (List.mem_cons_of_mem _ (List.mem_singleton_self _)) htarget isNext.symm
      rw [heq] at hsize
      omega
  | _ => exact absurd htarget List.not_mem_nil

/-- A jump that stays inside of a node, as all jumps that the node executes do, comes out of it only
if it is a conditional or a guarded region. -/
theorem Reachable.jump_leaks (hb : b.Reachable) (ha : b.assemble = .ok a)
    (hn : n ∈ a.body.subnodes) {l : LabelId} {v : Option Value}
    (hjump : n.Runs d m calls (.jump l v) m')
    (hinside : ∀ c ∈ calls, ∀ l, c.JumpsTo l → l ∈ n.places.map Label.id) :
    n.leaks = true ∧ n.defines l = true := by
  obtain ⟨c, hc, hjumps⟩ := hjump.jump_source
  have hmarked := hb.jump_marked ha hn hjump (hinside c hc l hjumps)
  refine ⟨?_, hmarked⟩
  by_contra hleaks
  cases hjump with
  | tail inner =>
    have hcomes := Turn.ends_iff_traces.mpr ⟨_, inner, rfl⟩
    exact Node.retains_of_leaks (Bool.eq_false_iff.mpr hleaks) d m _ ⟨_, hcomes⟩
      ⟨l, v, m', rfl, hmarked⟩

/-- What is pending when a region of a program is left goes on after the cleanup, if the cleanup is
executed from its start, its jumps lead to places inside of it, and it does not end with an
exception. It does not go on only if the cleanup is a lone conditional or guarded region that ends
with such a jump. -/
theorem Reachable.pending_continues (hb : b.Reachable) (ha : b.assemble = .ok a) {body cleanup : Node}
    {handlers : List (Handler Node)}
    (hn : .attempt body handlers (some cleanup) ∈ a.body.subnodes) {fuel : Nat}
    (h : (Node.attempt body handlers (some cleanup)).execWithin fuel d m = .ok flow m')
    (hd : ∀ s ∈ d, cleanup.defines s.target = false) :
    ∃ calls pending m₁ calls',
      (Node.attempt body handlers (some cleanup)).Runs d m
          (⟨.attempt body handlers (some cleanup), d, m⟩ :: (calls ++ calls')) flow
          (m'.metered m.steps m.stepLimit) ∧
        Passes body handlers d m calls pending m₁ ∧
          ((∃ l v, pending = .jump l v ∧ cleanup.defines l = true ∧
              cleanup.Runs (some ⟨l, v⟩) m₁ calls' flow (m'.metered m.steps m.stepLimit)) ∨
            ∃ own, cleanup.Runs none m₁ calls' own (m'.metered m.steps m.stepLimit) ∧
              ((∀ c ∈ calls', ∀ l, c.JumpsTo l → l ∈ cleanup.places.map Label.id) →
                (∀ v, own ≠ .throw v) →
                flow = pending ∨ cleanup.leaks = true ∧ flow = own ∧
                  ∃ l v, own = .jump l v ∧ cleanup.defines l = true)) := by
  obtain ⟨_, hruns⟩ := Node.runs_of_ok h
  obtain ⟨-, calls, pending, m₁, calls', rfl, hpasses, hleaves⟩ :=
    (Node.attempt_runs_iff fun s hs n hn => Option.some.inj hn ▸ hd s hs).mp hruns
  refine ⟨calls, pending, m₁, calls', hruns, hpasses, ?_⟩
  have hmem : cleanup ∈ a.body.subnodes := by
    refine Node.mem_subnodes_trans hn (Node.mem_subnodes_of_mem_children ?_
      (Node.self_mem_subnodes _))
    exact List.mem_cons_of_mem _ (List.mem_append_right _ (List.mem_singleton_self _))
  cases hleaves with
  | plain absent => cases absent
  | entered present inside run =>
    cases present
    exact .inl ⟨_, _, rfl, inside, run⟩
  | cleaned present _ run =>
    cases present
    exact .inr ⟨_, run, fun _ _ => .inl rfl⟩
  | replaced present _ run own =>
    cases present
    refine .inr ⟨_, run, fun hinside hraises => .inr ?_⟩
    cases flow with
    | normal v => exact absurd rfl (own v)
    | throw v => exact absurd rfl (hraises v)
    | jump l v =>
      obtain ⟨hleaks, hdefines⟩ := hb.jump_leaks ha hmem run hinside
      exact ⟨hleaks, rfl, l, v, rfl, hdefines⟩

/-- A cleanup of two statements, the first of which jumps from one branch to the other: the
exception of the body goes on. -/
theorem pending_continues_in_block :
    ∃ (b : Builder) (a : Artifact) (body cleanup : Node) (fuel : Nat) (m m' : Machine Unit)
      (v : Value),
      b.Reachable ∧ b.assemble = .ok a ∧ .attempt body [] (some cleanup) ∈ a.body.subnodes ∧
        (Node.attempt body [] (some cleanup)).execWithin fuel none m = .ok (.throw v) m' ∧
          ∃ calls pending m₁ calls',
            (Node.attempt body [] (some cleanup)).Runs none m
                (⟨.attempt body [] (some cleanup), none, m⟩ :: (calls ++ calls')) (.throw v)
                (m'.metered m.steps m.stepLimit) ∧
              Passes body [] none m calls pending m₁ ∧
                ((∃ l w, pending = .jump l w ∧ cleanup.defines l = true ∧
                    cleanup.Runs (some ⟨l, w⟩) m₁ calls' (.throw v)
                      (m'.metered m.steps m.stepLimit)) ∨
                  ∃ own, cleanup.Runs none m₁ calls' own (m'.metered m.steps m.stepLimit) ∧
                    ((∀ c ∈ calls', ∀ l, c.JumpsTo l → l ∈ cleanup.places.map Label.id) →
                      (∀ w, own ≠ .throw w) →
                      .throw v = pending ∨ cleanup.leaks = true ∧ .throw v = own ∧
                        ∃ l w, own = .jump l w ∧ cleanup.defines l = true)) := by
  obtain ⟨b, hb⟩ : ∃ b, Builder.create ⟨"f", false⟩ [] .int = .ok b := ⟨_, rfl⟩
  have hguarded := (Reachable.create hb).opening 0 .guarded
  have hthrow := hguarded.statement 1 (.throw ⟨[], .const (.str "lost")⟩)
  have hcleanup := hthrow.step (h := .guarded ⟨0, 0⟩ 1) (s := .cleanup) rfl
  have hif := hcleanup.opening 2 (.ifTest ⟨[], .const (.bool true)⟩)
  have hgoto := hif.statement 3 (.goto "L")
  have helse := hgoto.step (h := .branch ⟨2, 0⟩ 3) (s := .otherwise) rfl
  have hlabel := helse.statement 4 (.label "L")
  have hend := hlabel.statement 2 (.label "M")
  have hreturn := hend.statement 0 (.returnValue .int ⟨[], .const (.int 5)⟩)
  cases hb
  let body : Node := .throw (.const (.str "lost"))
  let cleanup : Node := .block [] [.branch (.const (.bool true)) (.jump (.named 1 "L"))
    (.mark (.named 1 "L")), .mark (.named 2 "M")]
  let a : Artifact := ⟨"f", [], .typed 0 .int, .block [] [
    .block [] [.attempt body [] (some cleanup), .goto (.typed 0 .int) (some (.const (.int 5)))],
    .label (.typed 0 .int) (some (.int 0))]⟩
  obtain ⟨b, hb, ha⟩ : ∃ b : Builder, b.Reachable ∧ b.assemble = .ok a := ⟨_, hreturn, rfl⟩
  have hn : .attempt body [] (some cleanup) ∈ a.body.subnodes :=
    Node.mem_subnodes_of_mem_children List.mem_cons_self
      (Node.mem_subnodes_of_mem_children List.mem_cons_self (Node.self_mem_subnodes _))
  let m : Machine Unit := .new .empty () 0
  obtain ⟨calls, hregion⟩ : ∃ calls,
      (Node.attempt body [] (some cleanup)).Runs none m calls (.throw (.str "lost")) m :=
    ⟨_, .tail (.call .done (.call (.call (.tail .done) (.call (.tail .done) (.call .done .done)))
      .done))⟩
  have h := hregion.execWithin_ok
  exact ⟨b, a, body, cleanup, _, _, _, _, hb, ha, hn, h, hb.pending_continues ha hn h nofun⟩

/-- The same in a cleanup of one statement: the exception of the body is lost, although nothing is
raised in the cleanup and the only jump leads to a place inside of it. -/
theorem pending_lost_in_cleanup :
    ∃ (b : Builder) (a : Artifact) (body cleanup : Node) (m m₁ m₂ : Machine Unit) (v : Value)
      (l : LabelId) (calls calls' : List (Call Unit)),
      b.Reachable ∧ b.assemble = .ok a ∧ .attempt body [] (some cleanup) ∈ a.body.subnodes ∧
        body.Runs none m calls (.throw v) m₁ ∧
          cleanup.Runs none m₁ calls' (.jump l none) m₂ ∧
            (∀ c ∈ calls', ∀ l, c.JumpsTo l → l ∈ cleanup.places.map Label.id) ∧
              (Node.attempt body [] (some cleanup)).Runs none m
                (⟨.attempt body [] (some cleanup), none, m⟩ :: (calls ++ calls'))
                (.jump l none) m₂ ∧
              ∃ m', a.Yields [] m (.ok (.int 5) m') := by
  obtain ⟨b, hb⟩ : ∃ b, Builder.create ⟨"f", false⟩ [] .int = .ok b := ⟨_, rfl⟩
  have hguarded := (Reachable.create hb).opening 0 .guarded
  have hthrow := hguarded.statement 1 (.throw ⟨[], .construct (.object "E") []⟩)
  have hcleanup := hthrow.step (h := .guarded ⟨0, 0⟩ 1) (s := .cleanup) rfl
  have hif := hcleanup.opening 2 (.ifTest ⟨[], .const (.bool true)⟩)
  have hgoto := hif.statement 3 (.goto "L")
  have helse := hgoto.step (h := .branch ⟨2, 0⟩ 3) (s := .otherwise) rfl
  have hlabel := helse.statement 4 (.label "L")
  have hreturn := hlabel.statement 0 (.returnValue .int ⟨[], .const (.int 5)⟩)
  cases hb
  let body : Node := .throw (.construct (.object "E") [])
  let test : Expr := .const (.bool true)
  let cleanup : Node := .branch test (.jump (.named 1 "L")) (.mark (.named 1 "L"))
  let a : Artifact := ⟨"f", [], .typed 0 .int, .block [] [
    .block [] [.attempt body [] (some cleanup), .goto (.typed 0 .int) (some (.const (.int 5)))],
    .label (.typed 0 .int) (some (.int 0))]⟩
  have hn : .attempt body [] (some cleanup) ∈ a.body.subnodes :=
    Node.mem_subnodes_of_mem_children List.mem_cons_self
      (Node.mem_subnodes_of_mem_children List.mem_cons_self (Node.self_mem_subnodes _))
  let m : Machine Unit := .new .empty () 0
  let m₁ : Machine Unit := { m with heap := ⟨#[], 1⟩ }
  have hbody : body.Runs none m [⟨body, none, m⟩] (.throw (.object 0 "E" [])) m₁ := .tail .done
  have hrun : cleanup.Runs none m₁ [⟨cleanup, none, m₁⟩, ⟨.jump (.named 1 "L"), none, m₁⟩]
      (.jump 1 none) m₁ := .tail (.tail .done)
  have hinside : ∀ c ∈ [(⟨cleanup, none, m₁⟩ : Call Unit), ⟨.jump (.named 1 "L"), none, m₁⟩],
      ∀ l, c.JumpsTo l → l ∈ cleanup.places.map Label.id := by
    intro c hc l hjumps
    obtain ⟨target, value, hnode, rfl⟩ := hjumps.goto
    rcases List.mem_cons.mp hc with rfl | hc
    · cases hnode
    · obtain rfl := List.mem_singleton.mp hc
      cases hnode
      exact List.mem_singleton_self _
  obtain ⟨m', hyields⟩ : ∃ m', a.Yields [] m (.ok (.int 5) m') :=
    ⟨_, (Artifact.yields_iff rfl).mpr ⟨_, _, .tail (.call (.call (.call .done (.call (.tail .done)
      .done)) (.call (.tail (.tail .done)) (.call .done .done))) (.call .done .done)), rfl⟩⟩
  have hregion : (Node.attempt body [] (some cleanup)).Runs none m
      [⟨.attempt body [] (some cleanup), none, m⟩, ⟨body, none, m⟩, ⟨cleanup, none, m₁⟩,
        ⟨.jump (.named 1 "L"), none, m₁⟩] (.jump 1 none) m₁ := by
    refine .tail ?_
    show Turn.Traces _ (⟨body, none, m⟩ :: ([] ++ ⟨cleanup, none, m₁⟩ ::
      ([⟨.jump (.named 1 "L"), none, m₁⟩] ++ []))) _
    exact .call .done (.call (.tail .done) .done)
  exact ⟨_, a, body, cleanup, m, m₁, m₁, _, 1, _, _, hreturn, rfl, hn, hbody, hrun, hinside, hregion,
    m', hyields⟩

end Builder

end StructuredFlow
