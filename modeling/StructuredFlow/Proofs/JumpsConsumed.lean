import StructuredFlow.Proofs.Runs

/-
  Every jump has an end inside of the program. A jump with which a node of an assembled program
  ends, wherever the node stands and however it is executed, is taken by a node around it: by a
  loop whose label it leads to, or by a block that has the place of its label
  (`Builder.Reachable.jump_taken`). So the body itself never ends with a jump, and what a run gives
  is settled by how the outermost scope has ended the last time it was executed
  (`Artifact.Gives`).
-/

namespace StructuredFlow

variable {ω : Type}

open Exec Outcome

namespace Node

variable {n : Node} {l : LabelId} {Γ : Surroundings}

/-- The node takes jumps to the label that come from inside of it: the label's place is among the
statements of a block, or the label is one of the two of a loop. -/
inductive Takes (l : LabelId) : Node → Prop
  | place {locals body} (placed : ∃ n ∈ body, n.defines l = true) : Takes l (.block locals body)
  | leave {body leave next} (isLeave : l = leave.id) : Takes l (.loop body leave next)
  | next {body leave next} (isNext : l = next.id) : Takes l (.loop body leave next)

/-- A node that takes jumps to a label never ends with one. -/
theorem Takes.ends (h : n.Takes l) (fuel : Nat) (d : Option Descent) (m : Machine ω)
    (v : Option Value) (m' : Machine ω) : n.execWithin fuel d m ≠ .ok (.jump l v) m' := by
  intro hjump
  cases h with
  | place placed =>
    obtain ⟨c, hc, hl⟩ := placed
    rw [block_jump hjump c hc] at hl
    cases hl
  | leave isLeave => exact (loop_jump hjump).1 isLeave
  | next isNext => exact (loop_jump hjump).2.1 isNext

/-- Where a node stands in a fitting tree it fits, and jumps are taken there by a node around it, or
by what is around the tree. -/
theorem Stands.fits {root : Node} {around : List Node} {hs : List (Handler Node)}
    (h : root.Stands around hs n) (hroot : root.Fits Γ) :
    ∃ Γ', n.Fits Γ' ∧ ∀ l, Γ'.targets l → Γ.targets l ∨ ∃ p ∈ around, p.Takes l := by
  induction h with
  | here => exact ⟨Γ, hroot, fun _ => .inl⟩
  | @part around hs n c _ mem ih =>
    obtain ⟨Γ', hfits, htargets⟩ := ih
    refine ⟨_, hfits.part mem, fun l hl => ?_⟩
    have outer : Γ'.targets l → Γ.targets l ∨ ∃ p ∈ n :: around, p.Takes l := fun hl =>
      (htargets l hl).imp_right fun ⟨p, hp, hpl⟩ => ⟨p, List.mem_cons_of_mem _ hp, hpl⟩
    cases n with
    | loop body leave next =>
      rcases hl with hl | hl | hl
      · exact outer hl
      · exact .inr ⟨_, List.mem_cons_self, .leave hl⟩
      · exact .inr ⟨_, List.mem_cons_self, .next hl⟩
    | _ => exact outer hl
  | @handler around hs n h _ mem ih =>
    obtain ⟨Γ', hfits, htargets⟩ := ih
    refine ⟨_, hfits.handler mem, fun l hl => ?_⟩
    have outer : Γ'.targets l → Γ.targets l ∨ ∃ p ∈ n :: around, p.Takes l := fun hl =>
      (htargets l hl).imp_right fun ⟨p, hp, hpl⟩ => ⟨p, List.mem_cons_of_mem _ hp, hpl⟩
    cases n with
    | attempt body handlers cleanup => exact outer hl
    | _ => exact absurd mem List.not_mem_nil

/-- Only the root itself has no node around it, and else the root is one of these. -/
theorem Stands.root_mem {root : Node} {around : List Node} {hs : List (Handler Node)}
    (h : root.Stands around hs n) : around = [] ∧ n = root ∨ root ∈ around := by
  induction h with
  | here => exact .inl ⟨rfl, rfl⟩
  | part _ _ ih =>
    rcases ih with ⟨-, rfl⟩ | ih
    · exact .inr List.mem_cons_self
    · exact .inr (List.mem_cons_of_mem _ ih)
  | handler _ _ ih =>
    rcases ih with ⟨-, rfl⟩ | ih
    · exact .inr List.mem_cons_self
    · exact .inr (List.mem_cons_of_mem _ ih)

end Node

namespace Builder

variable {b : Builder} {a : Artifact}

/-- The body of a program takes every jump that leads somewhere in it. -/
theorem body_takes (ha : b.assemble = .ok a) {l : LabelId} (hl : a.body.defines l = true) :
    a.body.Takes l := by
  obtain ⟨-, -, B, -, hbody⟩ := assemble_ok ha
  rw [hbody] at hl ⊢
  rw [Node.defines_eq] at hl
  obtain ⟨n, hn, hnl⟩ := List.any_eq_true.mp hl
  exact .place ⟨n, hn, hnl⟩

/-- A jump with which a node of the program ends is taken by a node around it. -/
theorem Reachable.jump_taken (hb : b.Reachable) (ha : b.assemble = .ok a) {around : List Node}
    {hs : List (Handler Node)} {n : Node} (h : a.body.Stands around hs n) {fuel : Nat}
    {d : Option Descent} {m m' : Machine ω} {l : LabelId} {v : Option Value}
    (hjump : n.execWithin fuel d m = .ok (.jump l v) m') : ∃ p ∈ around, p.Takes l := by
  obtain ⟨Γ, hfits, htargets⟩ := h.fits (hb.body_fits ha)
  rcases htargets l (hfits.jump hjump) with hl | hl
  · have htakes := body_takes ha hl
    rcases h.root_mem with ⟨-, rfl⟩ | hmem
    · exact absurd hjump (htakes.ends _ _ _ _ _)
    · exact ⟨a.body, hmem, htakes⟩
  · exact hl

/-- The body of a program, which has no node around it, never ends with a jump. -/
theorem Reachable.body_ends (hb : b.Reachable) (ha : b.assemble = .ok a) (fuel : Nat)
    (d : Option Descent) (m : Machine ω) (l : LabelId) (v : Option Value) (m' : Machine ω) :
    a.body.execWithin fuel d m ≠ .ok (.jump l v) m' := by
  intro hjump
  obtain ⟨p, hp, -⟩ := hb.jump_taken ha .here hjump
  exact absurd hp List.not_mem_nil

end Builder

/-! ## What a run gives -/

/-- What a program gives, by the flow that its outermost scope has ended with in the call: a scope
that completes gives the zero of the return type, and a return gives what its jump has carried. -/
inductive Artifact.Gives (a : Artifact) (fuel : Nat) (c : Call ω) : Flow → Value → Prop
  | completed (v : Value) : Gives a fuel c (.normal v) (Value.zero a.returnType)
  | returned {fuel' around caught c' l e m₁ v m₂}
      (visit : Node.Visits fuel c fuel' around caught c') (raised : c'.node = .goto l (some e))
      (exit : l.id = a.returnLabel.id) (ticked : tick c'.machine = .ok () m₁)
      (value : e.eval m₁ = .ok v m₂) : Gives a fuel c (.jump a.returnLabel.id (some v)) v
  | returnedVoid {fuel' around caught c' l} (visit : Node.Visits fuel c fuel' around caught c')
      (raised : c'.node = .goto l none) (exit : l.id = a.returnLabel.id)
      (void : a.returnType = .void) : Gives a fuel c (.jump a.returnLabel.id none) .void

/-- At the place that it leads to a jump gives what it carries, if anything. -/
theorem Exec.labelValue_carried (l : Label) (default : Option Constant) (v : Option Value) :
    labelValue l default (some ⟨l.id, v⟩) =
      v.getD ((default.map Value.ofConstant).getD .void) := by
  cases v <;> simp [labelValue]

theorem Node.label_ok {l : Label} {default : Option Constant} {fuel : Nat} {d : Option Descent}
    {m m' : Machine ω} {flow : Flow}
    (h : (Node.label l default).execWithin fuel d m = .ok flow m') :
    flow = .normal (labelValue l default d) ∧ m' = { m with steps := m.steps + 1 } := by
  cases fuel with
  | zero => cases h
  | succ fuel =>
    obtain ⟨_, m₁, ticked, h⟩ := andThen_ok.mp h
    obtain ⟨rfl, rfl⟩ := pure_ok.mp h
    exact ⟨rfl, tick_ok ticked⟩

theorem Exec.placeOf_label (top : Node) (l : Label) (default : Option Constant) (l' : LabelId) :
    placeOf l' [top, .label l default] =
      if top.defines l' = true then [top, .label l default]
      else if l.id = l' then [.label l default] else [] := by
  unfold placeOf
  by_cases htop : top.defines l' = true
  · simp [htop]
  · by_cases hl : l.id = l' <;> simp [htop, hl, Node.defines]

/-- A label that ends a row is all that is executed from there, and gives the value of the row. -/
theorem Exec.sequence_last {body : List Node} {l : Label} {default : Option Constant}
    {size fuel : Nat} {d : Option Descent} {last v : Value} {m m' : Machine ω}
    (h : sequence (Node.execWithin size) body fuel [.label l default] d last m =
      .ok (.normal v) m') :
    v = labelValue l default d ∧ m' = { m with steps := m.steps + 1 } := by
  cases fuel with
  | zero => cases h
  | succ fuel =>
    obtain ⟨flow, m₁, hlabel, h⟩ := andThen_ok.mp h
    obtain ⟨rfl, rfl⟩ := Node.label_ok hlabel
    cases fuel <;> cases h <;> exact ⟨rfl, rfl⟩

/-- A node followed by a label: the last execution of the node completes, or jumps to the label; the
label is all that is executed after it. -/
theorem Exec.sequence_label {top : Node} {l : Label} {default : Option Constant} {size : Nat}
    {fuel : Nat} {d : Option Descent} {last v : Value} {m m' : Machine ω}
    (h : sequence (Node.execWithin size) [top, .label l default] fuel [top, .label l default] d last
      m = .ok (.normal v) m') :
    ∃ d' m₀ flow m₁,
      SequenceCalls (Node.execWithin size) [top, .label l default] fuel [top, .label l default] d m
        ⟨top, d', m₀⟩ ∧
      top.execWithin size d' m₀ = .ok flow m₁ ∧ m' = { m₁ with steps := m₁.steps + 1 } ∧
      ((∃ w, flow = .normal w ∧ v = labelValue l default none) ∨
        ∃ w, flow = .jump l.id w ∧ v = labelValue l default (some ⟨l.id, w⟩)) := by
  induction fuel generalizing d last m with
  | zero => cases h
  | succ fuel ih =>
    obtain ⟨flow, m₁, htop, h⟩ := andThen_ok.mp h
    cases flow with
    | normal w =>
      obtain ⟨hv, hm'⟩ := sequence_last h
      exact ⟨d, m, _, m₁, .head, htop, hm', .inl ⟨w, rfl, hv⟩⟩
    | throw w => cases h
    | jump l' w =>
      dsimp only at h
      have hplace := placeOf_label top l default l'
      by_cases hl' : top.defines l' = true
      · rw [if_pos hl'] at hplace
        rw [hplace] at h
        obtain ⟨d', m₀, flow, m₂, hcalls, hrest⟩ := ih h
        refine ⟨d', m₀, flow, m₂, .again htop ?_, hrest⟩
        rw [hplace]
        exact hcalls
      · rw [if_neg hl'] at hplace
        by_cases hlabel : l.id = l'
        · rw [if_pos hlabel] at hplace
          rw [hplace] at h
          obtain ⟨hv, hm'⟩ := sequence_last h
          obtain rfl := hlabel
          exact ⟨d, m, _, m₁, .head, htop, hm', .inr ⟨w, rfl, hv⟩⟩
        · rw [if_neg hlabel] at hplace
          rw [hplace] at h
          cases h

namespace Builder

variable {b : Builder} {a : Artifact}

/-- The flow with which the outermost scope has ended last tells what the program gives. -/
theorem Reachable.gives (hb : b.Reachable) (ha : b.assemble = .ok a) {args : List Value}
    {m : Machine ω} {fuel : Nat} {c : Call ω} (hc : a.Visits args m fuel [a.body] [] c)
    {flow : Flow} {m₁ : Machine ω} (hflow : c.result (Node.execWithin fuel) = .ok flow m₁)
    {v : Value} (hend : (∃ w, flow = .normal w ∧ v = Value.zero a.returnType) ∨
      ∃ w, flow = .jump a.returnLabel.id w ∧ v = w.getD (Value.zero a.returnType)) :
    a.Gives fuel c flow v := by
  rcases hend with ⟨w, rfl, rfl⟩ | ⟨w, rfl, rfl⟩
  · exact .completed w
  · obtain ⟨Γ, hfits, hbound, hexit, -⟩ :=
      hc.2.fits (hb.body_fits ha) (Artifact.bound_entry _ hc.1)
    obtain ⟨fuel', around, caught, c', hvisit, -, hends⟩ :=
      Node.Visits.of_ending (ending_eq_jump.mpr ⟨m₁, hflow⟩)
    obtain ⟨Γ', hfits', -, hexit', -⟩ := hvisit.fits hfits hbound
    have hexit : Γ'.exit = a.returnLabel := hexit'.trans hexit
    -- The label is known by its number only, so the ending says which node has raised the jump.
    generalize hl : a.returnLabel.id = l at hends
    cases hends with
    | @jump l' raised =>
      have hvoid := (hfits'.checks.jump l' none raised).void (hexit ▸ hl.symm) rfl
      rw [hexit] at hvoid
      have hzero : Value.zero a.returnType = .void := by
        rw [Artifact.returnType, hvoid]
        rfl
      rw [Option.getD_none, hzero]
      exact hl ▸ .returnedVoid hvisit raised hl.symm hvoid
    | @jumpWith l' e m₂ v m₃ raised ticked value =>
      exact hl ▸ .returned hvisit raised hl.symm ticked value

/-- A run that gives a value has executed the outermost scope and then only the label that ends the
program; how the scope has ended the last time tells what is given. -/
theorem Reachable.run_gives (hb : b.Reachable) (ha : b.assemble = .ok a) {args : List Value}
    {m m' : Machine ω} {v : Value} (hrun : a.run args m = .ok v m') :
    ∃ top fuel d m₀ flow m₁,
      a.body = .block [] [top, .label a.returnLabel (Constant.zero? a.returnType)] ∧
      a.Visits args m fuel [a.body] [] ⟨top, d, m₀⟩ ∧
      top.execWithin fuel d m₀ = .ok flow m₁ ∧ m' = { m₁ with steps := m₁.steps + 1 } ∧
      a.Gives fuel ⟨top, d, m₀⟩ flow v := by
  obtain ⟨hlen, flow, hflow, hresult⟩ := Artifact.run_ok hrun
  obtain ⟨-, -, B, -, heq⟩ := assemble_ok ha
  cases flow with
  | jump l w => exact absurd hflow (hb.body_ends ha _ _ _ _ _ _)
  | throw w => cases hresult
  | normal w =>
    obtain rfl : w = v := by
      cases hresult
      rfl
    rw [Call.result, Artifact.entry, heq] at hflow
    obtain ⟨_, m₁, ticked, hflow⟩ := andThen_ok.mp hflow
    obtain ⟨_, m₂, hdeclare, hflow⟩ := andThen_ok.mp hflow
    obtain rfl := modify_ok.mp hdeclare
    obtain ⟨d, m₀, flow, m₃, hcalls, htop, hm', hend⟩ := sequence_label hflow
    have hcall := Node.Calls.block (d := none) ticked hcalls
    rw [← heq] at hcall
    have hvisits := Artifact.Visits.of_call hlen hcall
    refine ⟨B.collapse, m.stepLimit, d, m₀, flow, m₃, heq, hvisits, htop, hm', ?_⟩
    refine hb.gives ha hvisits htop ?_
    rcases hend with ⟨w', rfl, hw⟩ | ⟨w', rfl, hw⟩
    · exact .inl ⟨w', rfl, hw⟩
    · refine .inr ⟨w', rfl, hw.trans ?_⟩
      exact labelValue_carried _ _ _

/-- No jump gets out of a program: no run ends with one, each jump with which a node ends is taken
by a node around it that lets none to this label out, and what a run gives is what a return has
carried or, if the outermost scope completes, the zero of the return type. -/
theorem Reachable.jumps_consumed (hb : b.Reachable) (ha : b.assemble = .ok a) (args : List Value)
    (m : Machine ω) (hhost : ∀ name args world l world',
      m.host.call name args world ≠ .error (.escapedJump l) world') :
    (∀ l m', a.run args m ≠ .error (.escapedJump l) m') ∧
      (∀ around hs n, a.body.Stands around hs n →
        ∀ fuel d (m₁ : Machine ω) l v m₂, n.execWithin fuel d m₁ = .ok (.jump l v) m₂ →
          ∃ p ∈ around, p.Takes l ∧
            ∀ fuel d (m₁ : Machine ω) v m₂, p.execWithin fuel d m₁ ≠ .ok (.jump l v) m₂) ∧
      ∀ v m', a.run args m = .ok v m' → ∃ top fuel d m₀ flow m₁,
        a.body = .block [] [top, .label a.returnLabel (Constant.zero? a.returnType)] ∧
        a.Visits args m fuel [a.body] [] ⟨top, d, m₀⟩ ∧
        top.execWithin fuel d m₀ = .ok flow m₁ ∧ m' = { m₁ with steps := m₁.steps + 1 } ∧
        a.Gives fuel ⟨top, d, m₀⟩ flow v := by
  refine ⟨fun l m' hrun => ?_, fun around hs n hn fuel d m₁ l v m₂ hjump => ?_, fun v m' hrun => ?_⟩
  · rcases hb.run_stops ha hrun with ⟨_, _, h⟩ | ⟨_, h⟩ | ⟨_, _, -, h⟩ | h
    · cases h
    · cases h
    · exact hb.body_ends ha _ _ _ _ _ _ h
    · cases h with
      | host raised => exact hhost _ _ _ _ _ raised
  · obtain ⟨p, hp, hpl⟩ := hb.jump_taken ha hn hjump
    exact ⟨p, hp, hpl, hpl.ends⟩
  · exact hb.run_gives ha hrun

/-- A return out of a loop that would go on forever. -/
theorem jumps_consumed_in_loop :
    ∃ (b : Builder) (a : Artifact) (m' : Machine Unit), b.Reachable ∧ b.assemble = .ok a ∧
      a.run [] (.new .empty () 20) = .ok (.int 5) m' ∧
      ∃ fuel c flow, a.Visits [] (.new .empty () 20) fuel [a.body] [] c ∧
        a.Gives fuel c flow (.int 5) := by
  obtain ⟨b, hb⟩ : ∃ b, Builder.create ⟨"f", false⟩ [] .int = .ok b := ⟨_, rfl⟩
  have hloop := (Reachable.create hb).opening 0 (.whileTest ⟨[], .const (.bool true)⟩)
  have hreturn := hloop.statement 1 (.returnValue .int ⟨[], .const (.int 5)⟩)
  cases hb
  let a : Artifact := ⟨"f", [], .typed 0 .int, .block []
    [.loop (.branch (.const (.bool true)) (.goto (.typed 0 .int) (some (.const (.int 5))))
      (.jump (.internal 2))) (.internal 2) (.internal 1),
      .label (.typed 0 .int) (some (.int 0))]⟩
  obtain ⟨b, hb, hassemble⟩ : ∃ b : Builder, b.Reachable ∧ b.assemble = .ok a :=
    ⟨_, hreturn, rfl⟩
  obtain ⟨m', hrun⟩ : ∃ m' : Machine Unit, a.run [] (.new .empty () 20) = .ok (.int 5) m' :=
    ⟨_, rfl⟩
  have hhost : ∀ name args world l world',
      (Host.empty : Host Unit).call name args world ≠ .error (.escapedJump l) world' :=
    fun _ _ _ _ _ h => nomatch h
  obtain ⟨top, fuel, d, m₀, flow, m₁, -, hvisits, -, -, hgives⟩ :=
    (hb.jumps_consumed hassemble [] (.new .empty () 20) hhost).2.2 (.int 5) m' hrun
  exact ⟨b, a, m', hb, hassemble, hrun, fuel, _, flow, hvisits, hgives⟩

end Builder

end StructuredFlow
