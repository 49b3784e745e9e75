import StructuredFlow.Proofs.NodesAlike

/-
  Leaving blocks out is transparent. A program is assembled with a block for every scope whenever it
  is assembled without those that do nothing, and what its statements become is alike
  (`Scope.alike_of_assemble`). So both programs give the same with enough steps, as long as no
  handler and no cleanup lets out a jump into itself (`Builder.Reachable.collapse_transparent`).
-/

namespace StructuredFlow

variable {ω : Type}

/-! ## Blocks -/

/-- The blocks have the same locals, and nodes that are alike one by one. -/
structure Block.AlikeIfClear (ω : Type) (B B' : Block) : Prop where
  locals : B'.locals = B.locals
  nodes : List.Forall₂ (Node.AlikeIfClear ω) B.nodes B'.nodes

namespace Block

variable {B B' : Block}

theorem clear_toNode (h : B.collapse.Clear ω) : B.toNode.Clear ω where
  nodup := by
    rw [closes_toNode.places, ← closes_collapse.places]
    exact h.nodup
  confines region hregion := by
    rcases Node.mem_subnodes_iff.mp hregion with rfl | ⟨n, hn, hregion⟩
    · exact fun c hc => absurd hc List.not_mem_nil
    · exact h.confines region (Node.mem_subnodes_trans (closes_collapse.nodes B n hn) hregion)

namespace AlikeIfClear

theorem empty : Block.empty.AlikeIfClear ω .empty :=
  ⟨rfl, .nil⟩

theorem cons (n : Node) (h : B.AlikeIfClear ω B') : (B.cons n).AlikeIfClear ω (B'.cons n) :=
  ⟨h.locals, .cons (.refl n) h.nodes⟩

theorem isEmpty_eq (h : B.AlikeIfClear ω B') : B'.isEmpty = B.isEmpty := by
  obtain ⟨locals, nodes⟩ := B
  obtain ⟨_, nodes'⟩ := B'
  obtain ⟨rfl, hnodes⟩ := h
  cases hnodes <;> rfl

/-- The least node for a block and the block itself are alike. -/
theorem close (h : B.AlikeIfClear ω B') : B.collapse.AlikeIfClear ω B'.toNode := by
  intro hclear
  have hblocks := Node.AlikeIfClear.block B.locals h.nodes (clear_toNode hclear)
  have hlocals : B'.toNode = .block B.locals B'.nodes := by rw [toNode, h.locals]
  rw [hlocals]
  exact B.collapse_alike.trans hblocks

end AlikeIfClear

end Block

/-! ## Switches -/

namespace Node.AlikeIfClear

variable {groups groups' : List (Arm Block)} {default default' : Option (Label × Block)}

theorem arm (otherwise : Node) {g g' : Arm Block} (hvalues : g'.values = g.values)
    (hbody : g.body.AlikeIfClear ω g'.body) :
    (ofSwitch.arm Block.toNode otherwise g').values =
        (ofSwitch.arm Block.collapse otherwise g).values ∧
      (ofSwitch.arm Block.collapse otherwise g).body.AlikeIfClear ω
        (ofSwitch.arm Block.toNode otherwise g').body := by
  refine ⟨hvalues, ?_⟩
  unfold ofSwitch.arm
  dsimp only
  rw [hbody.isEmpty_eq]
  split
  · exact .refl otherwise
  · exact hbody.close

theorem ofSwitch (value : Expr)
    (hgroups : List.Forall₂ (fun g g' => g'.values = g.values ∧ g.body.AlikeIfClear ω g'.body)
      groups groups')
    (hdefault : Option.Rel (fun d d' => d'.1 = d.1 ∧ d.2.AlikeIfClear ω d'.2) default default') :
    (Node.ofSwitch Block.collapse value groups default).AlikeIfClear ω
      (.ofSwitch Block.toNode value groups' default') := by
  have harms : ∀ otherwise : Node, List.Forall₂
      (fun a a' => a'.values = a.values ∧ a.body.AlikeIfClear ω a'.body)
      (groups.map (ofSwitch.arm Block.collapse otherwise))
      (groups'.map (ofSwitch.arm Block.toNode otherwise)) := by
    intro otherwise
    rw [List.forall₂_map_left_iff, List.forall₂_map_right_iff]
    exact hgroups.imp fun g g' hg => arm otherwise hg.1 hg.2
  cases hdefault with
  | none => exact switch value (harms nop) .none
  | @some d d' hd =>
    obtain ⟨fall, B⟩ := d
    obtain ⟨_, B'⟩ := d'
    obtain ⟨rfl, hB⟩ := hd
    have hany : groups'.any (·.body.isEmpty) = groups.any (·.body.isEmpty) :=
      any_eq_of_forall₂ (fun _ _ hg => hg.2.isEmpty_eq) hgroups
    refine switch value (harms (jump _)) (.some ?_)
    rw [hany]
    split
    · exact (hB.cons _).close
    · exact hB.close

end Node.AlikeIfClear

/-! ## Statements and scopes -/

/-- If corresponding elements have something in common, this makes up a list. -/
theorem exists_forall₂ {α β γ : Type} {P : α → γ → Prop} {Q : β → γ → Prop} {xs : List α}
    {ys : List β} (h : List.Forall₂ (fun x y => ∃ z, P x z ∧ Q y z) xs ys) :
    ∃ zs, List.Forall₂ P xs zs ∧ List.Forall₂ Q ys zs := by
  induction h with
  | nil => exact ⟨[], .nil, .nil⟩
  | cons hxy _ ih =>
    obtain ⟨z, hx, hy⟩ := hxy
    obtain ⟨zs, hxs, hys⟩ := ih
    exact ⟨z :: zs, .cons hx hxs, .cons hy hys⟩

section Statements

variable {σ : Type} {label? : String → Option Label}

namespace Stmt.Becomes

variable {B B' : σ → Block} {n : Node}

theorem switch_eq {close : Block → Node} {value : Expr}
    {groups : List (Arm (Option Block))} {default : Option (Label × Block)}
    (h : (Stmt.switch value groups default).Becomes label? close n) (nonempty : groups ≠ []) :
    n = .ofSwitch close value (groups.map fun g => ⟨g.values, g.body.getD .empty⟩) default := by
  cases h with
  | soleDefault => exact absurd rfl nonempty
  | switch => rfl

theorem alike_switch {value : Expr} {groups : List (Arm (Option σ))}
    {default : Option (Label × σ)}
    (h : ((Stmt.switch value groups default).map B).Becomes label? Block.collapse n)
    (hB : ∀ c ∈ (Stmt.switch value groups default).scopes, (B c).AlikeIfClear ω (B' c)) :
    ∃ n', ((Stmt.switch value groups default).map B').Becomes label? Block.toNode n' ∧
      n.AlikeIfClear ω n' := by
  have hdefault : ∀ d ∈ default, (B d.2).AlikeIfClear ω (B' d.2) := fun d hd =>
    hB d.2 (List.mem_append_right _ (Option.mem_toList.mpr (Option.mem_map_of_mem Prod.snd hd)))
  by_cases hgroups : groups = []
  · subst hgroups
    cases default with
    | none =>
      cases h with
      | switch nonempty => exact absurd rfl nonempty
    | some d =>
      cases h with
      | soleDefault => exact ⟨_, .soleDefault value d.1 _, (hdefault d rfl).close⟩
      | switch nonempty => exact absurd rfl nonempty
  · have hnonempty {τ : Type} (f : σ → τ) :
        groups.map (fun g => (⟨g.values, g.body.map f⟩ : Arm (Option τ))) ≠ [] :=
      fun hnil => hgroups (List.map_eq_nil_iff.mp hnil)
    rw [Stmt.map] at h
    obtain rfl := h.switch_eq (hnonempty B)
    refine ⟨_, .switch (hnonempty B'), .ofSwitch value ?_ ?_⟩
    · rw [List.map_map, List.map_map]
      refine forall₂_map_map fun g hg => ⟨rfl, ?_⟩
      have hbody : ∀ c ∈ g.body, (B c).AlikeIfClear ω (B' c) := fun c hc =>
        hB c (List.mem_append_left _ (List.mem_filterMap.mpr ⟨g, hg, hc⟩))
      dsimp only [Function.comp_apply]
      cases hc : g.body with
      | none => exact .empty
      | some c => exact hbody c hc
    · cases default with
      | none => exact .none
      | some d => exact .some ⟨rfl, hdefault d rfl⟩

theorem alike_attempt {body : σ} {handlers : List (Handler σ)} {cleanup : Option σ}
    (h : ((Stmt.attempt body handlers cleanup).map B).Becomes label? Block.collapse n)
    (hB : ∀ c ∈ (Stmt.attempt body handlers cleanup).scopes, (B c).AlikeIfClear ω (B' c)) :
    ∃ n', ((Stmt.attempt body handlers cleanup).map B').Becomes label? Block.toNode n' ∧
      n.AlikeIfClear ω n' := by
  cases h with
  | attempt guarded =>
    refine ⟨_, .attempt ?_, .attempt (hB body List.mem_cons_self).close ?_ ?_⟩
    · refine guarded.imp (fun h hnil => ?_) fun h hnone => ?_
      · exact h (by rw [List.map_eq_nil_iff.mp hnil, List.map_nil])
      · exact h (by rw [Option.map_eq_none_iff.mp hnone, Option.map_none])
    · rw [List.map_map, List.map_map]
      refine forall₂_map_map fun h hh => ⟨rfl, rfl, (hB _ ?_).close, (Node.block_retains _ _).settled⟩
      exact List.mem_cons_of_mem _ (List.mem_append_left _ (List.mem_map_of_mem hh))
    · cases cleanup with
      | none => exact .none
      | some c =>
        refine .some ⟨(hB c ?_).close, (Node.block_retains _ _).settled⟩
        exact List.mem_cons_of_mem _ (List.mem_append_right _ (List.mem_singleton_self _))

/-- What a statement becomes without the blocks that do nothing, and what it becomes with a block
for every scope. -/
theorem alike {stmt : Stmt σ} (h : (stmt.map B).Becomes label? Block.collapse n)
    (hB : ∀ c ∈ stmt.scopes, (B c).AlikeIfClear ω (B' c)) :
    ∃ n', (stmt.map B').Becomes label? Block.toNode n' ∧ n.AlikeIfClear ω n' := by
  cases stmt with
  | node m =>
    cases h
    exact ⟨n, .node n, .refl n⟩
  | goto name =>
    cases h with
    | goto placed => exact ⟨_, .goto placed, .refl _⟩
  | conditional links otherwise =>
    cases h
    refine ⟨_, .conditional _ _, .ofLinks ?_ ?_⟩
    · rw [List.map_map, List.map_map]
      refine forall₂_map_map fun l hl => ⟨rfl, (hB _ ?_).close⟩
      exact List.mem_append_left _ (List.mem_map_of_mem hl)
    · cases otherwise with
      | none => exact .refl .nop
      | some c => exact (hB c (List.mem_append_right _ (List.mem_singleton_self _))).close
  | loop l c =>
    cases h
    exact ⟨_, .loop l _, .ofLoop l (hB c (List.mem_singleton_self _)).close⟩
  | iteration iterator collection l c =>
    cases h
    exact ⟨_, .iteration iterator collection l _,
      .ofIteration iterator collection (.ofLoop l (hB c (List.mem_singleton_self _)).close)⟩
  | switch value groups default => exact h.alike_switch hB
  | attempt body handlers cleanup => exact h.alike_attempt hB
  | resource s producer c =>
    cases h
    exact ⟨_, .resource s producer _,
      .withCleanup s producer (hB c (List.mem_singleton_self _)).close⟩

end Stmt.Becomes

end Statements

namespace Scope

variable {label? : String → Option Label} {close : Block → Node} {s : Scope} {B : Block}

/-- The block that a scope is assembled to, if it can be assembled. -/
def block (label? : String → Option Label) (close : Block → Node) (s : Scope) : Block :=
  (s.assemble label? close).toOption.getD .empty

theorem block_eq (h : s.assemble label? close = .ok B) : s.block label? close = B := by
  rw [block, h]
  rfl

theorem eq_map_block {stmt : Stmt Scope} {t : Stmt Block}
    (h : stmt.map (assemble label? close) = t.map .ok) : t = stmt.map (block label? close) := by
  have hmap := congrArg (Stmt.map fun x => x.toOption.getD .empty) h
  rw [Stmt.map_map, Stmt.map_map] at hmap
  exact (Stmt.map_id t).symm.trans hmap.symm

/-- A scope that is assembled without the blocks that do nothing is assembled with a block for every
scope too, and the statements become nodes that are alike. -/
theorem alike_of_assemble (ω : Type) (h : s.assemble label? Block.collapse = .ok B) :
    ∃ B', s.assemble label? Block.toNode = .ok B' ∧ B.AlikeIfClear ω B' := by
  induction s using induct generalizing B with
  | step s ih =>
    obtain ⟨hlocals, hall⟩ := assemble_ok h
    have hstmts : List.Forall₂ (fun stmt n => ∃ n',
        (stmt.map (assemble label? Block.toNode)).assemble label? Block.toNode = .ok n' ∧
          n.AlikeIfClear ω n') s.stmts B.nodes := by
      refine (forall₂_with_mem hall).imp fun stmt n ⟨hstmt, _, t, ht, hbecomes⟩ => ?_
      have hscopes : ∀ c ∈ stmt.scopes, c.assemble label? Block.toNode =
          .ok (c.block label? Block.toNode) ∧
          (c.block label? Block.collapse).AlikeIfClear ω (c.block label? Block.toNode) := by
        intro c hc
        obtain ⟨C, -, hC⟩ := exists_of_map ht hc
        obtain ⟨C', hC', halike⟩ := ih c (mem_children.mpr ⟨stmt, hstmt, hc⟩) hC
        rw [block_eq hC, block_eq hC']
        exact ⟨hC', halike⟩
      -- A statement becomes what the blocks of its scopes make of it, with either kind of blocks.
      rw [eq_map_block ht] at hbecomes
      obtain ⟨n', hbecomes', halike⟩ := hbecomes.alike fun c hc => (hscopes c hc).2
      refine ⟨n', ?_, halike⟩
      rw [← hbecomes'.assemble_eq, Stmt.map_map]
      exact congrArg _ (Stmt.map_congr fun c hc => (hscopes c hc).1)
    obtain ⟨nodes, hnodes, hcorrespond⟩ := exists_forall₂ hstmts
    exact ⟨⟨s.frame.locals, nodes⟩, assemble_of_forall₂ hnodes, hlocals.symm, hcorrespond⟩

end Scope

/-! ## Programs -/

theorem Turn.comes_tail {c : Call ω} {r : Report ω} :
    (Turn.tail c).Comes r ↔ c.begin.Comes r := by
  constructor
  · rintro ⟨_, hr⟩
    cases hr with
    | tail inner => exact ⟨_, inner⟩
  · rintro ⟨_, hr⟩
    exact ⟨_, .tail hr⟩

namespace Artifact

variable {a a' : Artifact} {args : List Value} {m : Machine ω}
  {r r' : EStateM.Result EvalError (Machine ω) Value}

theorem conclude_congr (h : a'.returnLabel = a.returnLabel) (report : Report ω) :
    a'.conclude report = a.conclude report := by
  unfold conclude result
  rw [h]

theorem yields_iff_comes (hlen : args.length = a.params.length) :
    a.Yields args m r ↔ ∃ report, (Turn.tail (a.entry args m)).Comes report ∧
      Outcome.mapState (·.metered 0 0) (a.conclude report) = r := by
  rw [yields_iff hlen]
  exact ⟨fun ⟨k, report, hk, hr⟩ => ⟨report, ⟨k, hk⟩, hr⟩,
    fun ⟨report, ⟨k, hk⟩, hr⟩ => ⟨k, report, hk, hr⟩⟩

/-- Programs with the same interface whose bodies come to the same give the same. -/
theorem yields_congr (hparams : a'.params = a.params) (hreturn : a'.returnLabel = a.returnLabel)
    (hcomes : ∀ report, (Turn.tail (a.entry args m)).Comes report ↔
      (Turn.tail (a'.entry args m)).Comes report) : a.Yields args m r ↔ a'.Yields args m r := by
  by_cases hlen : args.length = a.params.length
  · rw [yields_iff_comes hlen, yields_iff_comes (hparams ▸ hlen)]
    simp only [hcomes, conclude_congr hreturn]
  · rw [yields_of_length_ne hlen, yields_of_length_ne (hparams ▸ hlen), hparams]

theorem Yields.unique (h : a.Yields args m r) (h' : a.Yields args m r') : r = r' := by
  obtain ⟨least, h⟩ := h
  obtain ⟨least', h'⟩ := h'
  exact (h _ (Nat.le_max_left least least')).symm.trans (h' _ (Nat.le_max_right least least'))

end Artifact

namespace Builder

variable {b : Builder} {a : Artifact}

/-- A program is assembled with a block for every scope if it is assembled without those that do
nothing. -/
theorem assembleWith_toNode (ω : Type) (ha : b.assemble = .ok a) :
    ∃ a', b.assembleWith Block.toNode = .ok a' ∧ a'.params = a.params ∧
      a'.returnLabel = a.returnLabel ∧ a.body.AlikeIfClear ω a'.body := by
  obtain ⟨hparams, hreturn, B, hB, hbody⟩ := assemble_ok ha
  obtain ⟨B', hB', halike⟩ := Scope.alike_of_assemble ω hB
  refine ⟨_, Except.andThen_ok.mpr ⟨B', hB', rfl⟩, hparams.symm, hreturn.symm, ?_⟩
  rw [hbody, Artifact.returnType, hreturn]
  exact .block [] (.cons halike.close (.cons (.refl _) .nil))

/-- No jump to a place in the body comes out of it. -/
theorem retains_of_assembleWith {close : Block → Node} (ha : b.assembleWith close = .ok a) :
    a.body.Retains ω := by
  obtain ⟨-, -, B, -, hbody⟩ := assembleWith_ok ha
  rw [hbody]
  exact Node.block_retains _ _

/-- Leaving blocks out is transparent: with enough steps, a program gives what it gives with a block
for every scope, as long as no handler and no cleanup lets out a jump into itself. -/
theorem Reachable.collapse_transparent (hb : b.Reachable) (ha : b.assemble = .ok a)
    (hconfines : a.body.Confines ω) :
    ∃ a', b.assembleWith Block.toNode = .ok a' ∧
      ∀ (args : List Value) (m : Machine ω) r, a.Yields args m r ↔ a'.Yields args m r := by
  obtain ⟨a', ha', hparams, hreturn, halike⟩ := assembleWith_toNode ω ha
  have hbodies := halike ⟨hb.built.placed.places_nodup Block.closes_collapse ha, hconfines⟩
  refine ⟨a', ha', fun args m r => Artifact.yields_congr hparams hreturn fun report => ?_⟩
  rw [Artifact.entry, Artifact.entry, hparams, Turn.comes_tail, Turn.comes_tail]
  exact hbodies.begin (retains_of_assembleWith ha) (retains_of_assembleWith ha')

/-- A handler of three statements, with a jump to a label of its own. -/
theorem collapse_transparent_in_handler :
    ∃ (b : Builder) (a a' : Artifact) (m m' : Machine Unit), b.Reachable ∧ b.assemble = .ok a ∧
      a.body.Confines Unit ∧ b.assembleWith Block.toNode = .ok a' ∧
        a.Yields [] m (.ok (.int 7) m') ∧ a'.Yields [] m (.ok (.int 7) m') := by
  obtain ⟨b, hb⟩ : ∃ b, Builder.create ⟨"f", false⟩ [] .int = .ok b := ⟨_, rfl⟩
  have hguarded := (Reachable.create hb).opening 0 .guarded
  have hthrow := hguarded.statement 1 (.throw ⟨[], .construct (.object "E") []⟩)
  have hcatch := hthrow.step (h := .guarded ⟨0, 0⟩ 1) (s := .handler (.object "E") none) rfl
  have hgoto := hcatch.statement 2 (.goto "L")
  have hlabel := hgoto.statement 2 (.label "L")
  have hreturn := hlabel.statement 2 (.returnValue .int ⟨[], .const (.int 7)⟩)
  cases hb
  let handler : Node := .block [] [.jump (.named 1 "L"), .mark (.named 1 "L"),
    .goto (.typed 0 .int) (some (.const (.int 7)))]
  let a : Artifact := ⟨"f", [], .typed 0 .int, .block [] [
    .attempt (.throw (.construct (.object "E") [])) [⟨.object "E", none, handler⟩] none,
    .label (.typed 0 .int) (some (.int 0))]⟩
  obtain ⟨b, hb, ha⟩ : ∃ b : Builder, b.Reachable ∧ b.assemble = .ok a := ⟨_, hreturn, rfl⟩
  let m : Machine Unit := .new .empty () 0
  have hconfines : a.body.Confines Unit := Node.confines_of_leaks_eq_false (by decide)
  obtain ⟨m', hyields⟩ : ∃ m', a.Yields [] m (.ok (.int 7) m') :=
    ⟨_, (Artifact.yields_iff rfl).mpr ⟨_, _, .tail (.call (.call .done (.call (.call .done
      (.call .done (.call .done .done))) .done)) (.call .done .done)), rfl⟩⟩
  obtain ⟨a', ha', hsame⟩ := hb.collapse_transparent ha hconfines
  exact ⟨b, a, a', m, m', hb, ha, hconfines, ha', hyields, (hsame [] m _).mp hyields⟩

/-- A handler that is a lone conditional lets its jump out, which is then refused as a jump into the
handler; in a block of its own it would have taken the jump. -/
theorem collapse_differs_in_handler :
    ∃ (b : Builder) (a a' : Artifact) (m m₁ m₂ : Machine Unit), b.Reachable ∧ b.assemble = .ok a ∧
      b.assembleWith Block.toNode = .ok a' ∧ a.Yields [] m (.error (.jumpIntoHandler 1) m₁) ∧
        a'.Yields [] m (.ok (.int 7) m₂) ∧ ¬ a.Yields [] m (.ok (.int 7) m₂) := by
  obtain ⟨b, hb⟩ : ∃ b, Builder.create ⟨"f", false⟩ [] .int = .ok b := ⟨_, rfl⟩
  have hguarded := (Reachable.create hb).opening 0 .guarded
  have hthrow := hguarded.statement 1 (.throw ⟨[], .construct (.object "E") []⟩)
  have hcatch := hthrow.step (h := .guarded ⟨0, 0⟩ 1) (s := .handler (.object "E") none) rfl
  have hif := hcatch.opening 2 (.ifTest ⟨[], .const (.bool true)⟩)
  have hgoto := hif.statement 3 (.goto "L")
  have helse := hgoto.step (h := .branch ⟨2, 0⟩ 3) (s := .otherwise) rfl
  have hlabel := helse.statement 4 (.label "L")
  have hreturn := hlabel.statement 4 (.returnValue .int ⟨[], .const (.int 7)⟩)
  cases hb
  let leave : Node := .block [] [.mark (.named 1 "L"),
    .goto (.typed 0 .int) (some (.const (.int 7)))]
  let a : Artifact := ⟨"f", [], .typed 0 .int, .block [] [
    .attempt (.throw (.construct (.object "E") [])) [⟨.object "E", none,
      .branch (.const (.bool true)) (.jump (.named 1 "L")) leave⟩] none,
    .label (.typed 0 .int) (some (.int 0))]⟩
  let a' : Artifact := ⟨"f", [], .typed 0 .int, .block [] [
    .block [] [.attempt (.block [] [.throw (.construct (.object "E") [])]) [⟨.object "E", none,
      .block [] [.branch (.const (.bool true)) (.block [] [.jump (.named 1 "L")]) leave]⟩] none],
    .label (.typed 0 .int) (some (.int 0))]⟩
  let m : Machine Unit := .new .empty () 0
  obtain ⟨m₁, hyields⟩ : ∃ m₁, a.Yields [] m (.error (.jumpIntoHandler 1) m₁) :=
    ⟨_, (Artifact.yields_iff rfl).mpr ⟨_, _, .tail (.call (.call .done (.call (.tail .done) .done))
      .done), rfl⟩⟩
  obtain ⟨m₂, hyields'⟩ : ∃ m₂, a'.Yields [] m (.ok (.int 7) m₂) :=
    ⟨_, (Artifact.yields_iff rfl).mpr ⟨_, _, .tail (.call (.call (.call (.call .done .done)
      (.call (.call (.tail (.call .done .done)) (.call (.tail (.call .done (.call .done .done)))
        .done)) .done)) .done) (.call .done .done)), rfl⟩⟩
  refine ⟨_, a, a', m, m₁, m₂, hreturn, rfl, rfl, hyields, hyields', fun h => ?_⟩
  cases hyields.unique h

end Builder

end StructuredFlow
