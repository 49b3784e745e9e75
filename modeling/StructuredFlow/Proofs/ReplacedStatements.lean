import StructuredFlow.Proofs.Layout
import StructuredFlow.Proofs.NodeReplace

/-
  A switch that only has a default (`Node.SoleDefault`) is nothing that assembly makes. So when a
  statement is replaced by one before assembly, the program that comes out differs in that node
  alone: with the node of the statement put back, it is the program as it was
  (`Builder.Built.assemble_changing`).
-/

namespace StructuredFlow

namespace Node

/-- A switch with a default and without arms. -/
def SoleDefault (n : Node) : Prop :=
  ∃ value default, n = .switch value [] (some default)

variable {old new n : Node}

section

variable (hold : old.SoleDefault)
include hold

/-- Of any other node, what is below it is replaced. -/
theorem SoleDefault.replace_eq (h : ∀ value default, n ≠ .switch value [] (some default)) :
    replace old new n = n.mapChildren (replace old new) := by
  refine replace_of_ne ?_
  rintro rfl
  obtain ⟨value, default, rfl⟩ := hold
  exact h value default rfl

theorem SoleDefault.replace_leaf (h : n.children = []) : replace old new n = n := by
  rw [hold.replace_eq, mapChildren_congr (g := id), mapChildren_id]
  · rw [h]
    simp
  · rintro value default rfl
    cases h

theorem SoleDefault.replace_block (locals : List Symbol) (body : List Node) :
    replace old new (block locals body) = block locals (body.map (replace old new)) :=
  hold.replace_eq (by simp)

theorem SoleDefault.replace_branch (test : Expr) (yes no : Node) :
    replace old new (branch test yes no) =
      branch test (replace old new yes) (replace old new no) :=
  hold.replace_eq (by simp)

theorem SoleDefault.replace_loop (body : Node) (leave next : Label) :
    replace old new (loop body leave next) = loop (replace old new body) leave next :=
  hold.replace_eq (by simp)

theorem SoleDefault.replace_switch (value : Expr) {arms : List (Arm Node)} (default : Option Node)
    (h : arms ≠ [] ∨ default = none) :
    replace old new (switch value arms default) =
      switch value (arms.map fun a => ⟨a.values, replace old new a.body⟩)
        (default.map (replace old new)) := by
  refine hold.replace_eq fun value' default' heq => ?_
  cases heq
  simp at h

theorem SoleDefault.replace_attempt (body : Node) (handlers : List (Handler Node))
    (cleanup : Option Node) :
    replace old new (attempt body handlers cleanup) =
      attempt (replace old new body)
        (handlers.map fun h => ⟨h.kind, h.binding, replace old new h.body⟩)
        (cleanup.map (replace old new)) :=
  hold.replace_eq (by simp)

/-! ## Nodes that assembly makes -/

theorem SoleDefault.replace_ofLinks (links : List (Expr × Node)) (otherwise : Node) :
    replace old new (ofLinks links otherwise) =
      ofLinks (links.map fun l => (l.1, replace old new l.2)) (replace old new otherwise) := by
  induction links with
  | nil => rfl
  | cons l links ih =>
    show replace old new (branch l.1 l.2 (ofLinks links otherwise)) = _
    rw [hold.replace_branch, ih]
    rfl

theorem SoleDefault.replace_ofLoop (l : Loop) (body : Node) :
    replace old new (ofLoop l body) = ofLoop l (replace old new body) := by
  unfold ofLoop
  rw [hold.replace_loop, hold.replace_branch, hold.replace_leaf (n := jump l.leave) rfl]

theorem SoleDefault.replace_disposal (s : Symbol) : replace old new (disposal s) = disposal s := by
  unfold disposal
  dsimp only
  split
  · rw [hold.replace_branch, hold.replace_leaf rfl, hold.replace_leaf rfl]
  · exact hold.replace_leaf rfl

theorem SoleDefault.replace_withCleanup (s : Symbol) (producer : Expr) (body : Node) :
    replace old new (withCleanup s producer body) =
      withCleanup s producer (replace old new body) := by
  unfold withCleanup
  rw [hold.replace_block, List.map_cons, List.map_singleton, hold.replace_leaf rfl,
    hold.replace_attempt, Option.map_some, hold.replace_disposal]
  rfl

theorem SoleDefault.replace_ofIteration (iterator : Symbol) (collection : Expr) (walk : Node) :
    replace old new (ofIteration iterator collection walk) =
      ofIteration iterator collection (replace old new walk) := by
  unfold ofIteration
  dsimp only
  split
  · exact hold.replace_withCleanup _ _ _
  · rw [hold.replace_block, List.map_cons, List.map_singleton, hold.replace_leaf rfl]

end

end Node

namespace Block

/-- The block with one node in the place of another. -/
noncomputable def replace (old new : Node) (B : Block) : Block :=
  ⟨B.locals, B.nodes.map (Node.replace old new)⟩

variable {old new : Node}

theorem replace_isEmpty (B : Block) : (B.replace old new).isEmpty = B.isEmpty := by
  simp [replace, isEmpty]

theorem replace_collapse (hold : old.SoleDefault) (B : Block) :
    Node.replace old new B.collapse = (B.replace old new).collapse := by
  obtain ⟨locals, nodes⟩ := B
  cases locals with
  | cons x locals => exact hold.replace_block (x :: locals) nodes
  | nil =>
    cases nodes with
    | nil => exact hold.replace_leaf rfl
    | cons n nodes =>
      cases nodes with
      | nil => rfl
      | cons n' nodes => exact hold.replace_block [] (n :: n' :: nodes)

theorem replace_cons (n : Node) (B : Block) :
    (B.cons n).replace old new = (B.replace old new).cons (Node.replace old new n) :=
  rfl

end Block

namespace Node

variable {old new : Node} {groups : List (Arm Block)} {default : Option (Label × Block)}

theorem SoleDefault.replace_arm (hold : old.SoleDefault) {otherwise : Node}
    (h : otherwise.children = []) (g : Arm Block) :
    (⟨g.values, replace old new (ofSwitch.arm Block.collapse otherwise g).body⟩ : Arm Node) =
      ofSwitch.arm Block.collapse otherwise ⟨g.values, g.body.replace old new⟩ := by
  unfold ofSwitch.arm
  dsimp only
  rw [Block.replace_isEmpty]
  split
  · rw [hold.replace_leaf h]
  · rw [g.body.replace_collapse hold]

theorem SoleDefault.replace_arms (hold : old.SoleDefault) {otherwise : Node}
    (h : otherwise.children = []) (groups : List (Arm Block)) :
    ((groups.map (ofSwitch.arm Block.collapse otherwise)).map fun a =>
        (⟨a.values, replace old new a.body⟩ : Arm Node)) =
      (groups.map fun g => ⟨g.values, g.body.replace old new⟩).map
        (ofSwitch.arm Block.collapse otherwise) := by
  rw [List.map_map, List.map_map]
  exact List.map_congr_left fun g _ => hold.replace_arm h g

theorem SoleDefault.replace_ofSwitch (hold : old.SoleDefault) (value : Expr) (h : groups ≠ []) :
    replace old new (ofSwitch Block.collapse value groups default) =
      ofSwitch Block.collapse value (groups.map fun g => ⟨g.values, g.body.replace old new⟩)
        (default.map fun d => (d.1, d.2.replace old new)) := by
  cases default with
  | none =>
    unfold ofSwitch
    rw [hold.replace_switch value none (.inr rfl), hold.replace_arms rfl]
    rfl
  | some d =>
    obtain ⟨fall, B⟩ := d
    have hempty : (groups.map fun g => (⟨g.values, g.body.replace old new⟩ : Arm Block)).any
        (·.body.isEmpty) = groups.any (·.body.isEmpty) := by
      simp [List.any_map, Function.comp_def, Block.replace_isEmpty]
    unfold ofSwitch
    dsimp only [Option.map_some]
    rw [hold.replace_switch value _ (.inl (by simpa using h)), hold.replace_arms rfl, hempty,
      Option.map_some, Block.replace_collapse hold]
    split
    · rw [Block.replace_cons, hold.replace_leaf rfl]
    · rfl

end Node

namespace Stmt.Becomes

variable {label? : String → Option Label} {t : Stmt Block} {n n' old new : Node}

theorem unique {close : Block → Node} (h : t.Becomes label? close n)
    (h' : t.Becomes label? close n') : n = n' :=
  Except.ok.inj (h.assemble_eq.symm.trans h'.assemble_eq)

/-- Whether a statement becomes a node does not depend on its blocks. -/
theorem exists_of_map {close : Block → Node} {f : Block → Block}
    (h : (t.map f).Becomes label? close n) : ∃ n', t.Becomes label? close n' := by
  cases t with
  | node m => exact ⟨m, .node m⟩
  | goto name =>
    cases h with
    | goto placed => exact ⟨_, .goto placed⟩
  | conditional links otherwise => exact ⟨_, .conditional links otherwise⟩
  | loop l body => exact ⟨_, .loop l body⟩
  | iteration iterator collection l body => exact ⟨_, .iteration iterator collection l body⟩
  | switch value groups default =>
    cases groups with
    | cons g groups => exact ⟨_, .switch (List.cons_ne_nil _ _)⟩
    | nil =>
      cases default with
      | some d => exact ⟨_, .soleDefault value d.1 d.2⟩
      | none =>
        cases h with
        | switch nonempty => exact absurd rfl nonempty
  | attempt body handlers cleanup =>
    cases h with
    | attempt guarded => exact ⟨_, .attempt (by simpa using guarded)⟩
  | resource s producer body => exact ⟨_, .resource s producer body⟩

/-- What a statement becomes when a node is replaced in its blocks. -/
theorem replace (hold : old.SoleDefault) (h : t.Becomes label? Block.collapse n)
    (hleaf : ∀ m, t = .node m → m.children = []) :
    (t.map (Block.replace old new)).Becomes label? Block.collapse (Node.replace old new n) := by
  have hclose (B : Block) : Node.replace old new B.collapse = (B.replace old new).collapse :=
    B.replace_collapse hold
  cases h with
  | node n =>
    rw [hold.replace_leaf (hleaf n rfl)]
    exact .node n
  | goto placed =>
    rw [hold.replace_leaf rfl]
    exact .goto placed
  | conditional links otherwise =>
    have hotherwise : Node.replace old new ((otherwise.map Block.collapse).getD .nop) =
        ((otherwise.map (Block.replace old new)).map Block.collapse).getD .nop := by
      cases otherwise with
      | none => exact hold.replace_leaf rfl
      | some B => exact hclose B
    have hlinks : (links.map fun l => (l.1, l.2.collapse)).map
        (fun l => (l.1, Node.replace old new l.2)) =
          (links.map fun l => (l.1, l.2.replace old new)).map fun l => (l.1, l.2.collapse) := by
      simp [Function.comp_def, hclose]
    rw [hold.replace_ofLinks, hlinks, hotherwise]
    exact .conditional _ _
  | loop l body =>
    rw [hold.replace_ofLoop, hclose]
    exact .loop l _
  | iteration iterator collection l body =>
    rw [hold.replace_ofIteration, hold.replace_ofLoop, hclose]
    exact .iteration iterator collection l _
  | soleDefault value fall body =>
    rw [hclose]
    exact .soleDefault value fall _
  | @switch value groups default nonempty =>
    have hgroups : (groups.map fun g => (⟨g.values, g.body.getD .empty⟩ : Arm Block)).map
        (fun g => (⟨g.values, g.body.replace old new⟩ : Arm Block)) =
          (groups.map fun g => (⟨g.values, g.body.map (Block.replace old new)⟩ :
            Arm (Option Block))).map fun g => ⟨g.values, g.body.getD .empty⟩ := by
      rw [List.map_map, List.map_map]
      refine List.map_congr_left fun g _ => ?_
      cases hbody : g.body <;> simp [hbody, Block.replace, Block.empty]
    rw [hold.replace_ofSwitch value (by simpa using nonempty), hgroups]
    exact .switch (by simpa using nonempty)
  | @attempt body handlers cleanup guarded =>
    have hhandlers : (handlers.map fun h => (⟨h.kind, h.binding, h.body.collapse⟩ :
        Handler Node)).map (fun h => (⟨h.kind, h.binding, Node.replace old new h.body⟩ :
          Handler Node)) = (handlers.map fun h => (⟨h.kind, h.binding, h.body.replace old new⟩ :
            Handler Block)).map fun h => ⟨h.kind, h.binding, h.body.collapse⟩ := by
      simp [Function.comp_def, hclose]
    have hcleanup : (cleanup.map Block.collapse).map (Node.replace old new) =
        (cleanup.map (Block.replace old new)).map Block.collapse := by
      simp [Function.comp_def, hclose]
    rw [hold.replace_attempt, hclose, hhandlers, hcleanup]
    exact .attempt (by simpa using guarded)
  | resource s producer body =>
    rw [hold.replace_withCleanup, hclose]
    exact .resource s producer _

end Stmt.Becomes

/-- Lists that correspond still do with one more corresponding pair at a place. -/
theorem forall₂_set {α β : Type} {R : α → β → Prop} {xs : List α} {ys : List β}
    (h : List.Forall₂ R xs ys) (i : Nat) {x : α} {y : β} (hxy : R x y) :
    List.Forall₂ R (xs.set i x) (ys.set i y) := by
  induction h generalizing i with
  | nil => exact .nil
  | cons hab htail ih =>
    cases i with
    | zero => exact .cons hxy htail
    | succ i => exact .cons hab (ih i)

namespace Scope

variable {label? : String → Option Label} {id : ScopeId} {i : Nat} {old new : Node} {s : Scope}
  {B : Block}

theorem subscopes_subset {c : Scope} (h : c ∈ s.children) : c.subscopes ⊆ s.subscopes := by
  intro t ht
  rw [subscopes_eq s]
  exact List.mem_cons_of_mem _ (List.mem_flatMap.mpr ⟨c, h, ht⟩)

/-- A statement whose scopes are changed becomes a node with the switch in the place of another one
if this holds of what the scopes are assembled to. -/
theorem assemble_stmt {f : Scope → Scope} (hold : old.SoleDefault) {stmt : Stmt Scope}
    {t : Stmt Block} {n : Node} (hleaf : ∀ m, stmt = .node m → m.children = [])
    (ht : stmt.map (assemble label? Block.collapse) = t.map .ok)
    (hbecomes : t.Becomes label? Block.collapse n)
    (hscopes : ∀ c ∈ stmt.scopes, ∃ C, (f c).assemble label? Block.collapse = .ok C ∧
      C.replace old new = c.block label? Block.collapse) :
    ∃ n', ((stmt.map f).map (assemble label? Block.collapse)).assemble label? Block.collapse =
      .ok n' ∧ Node.replace old new n' = n := by
  let F (c : Scope) : Block := (f c).block label? Block.collapse
  have hF : ∀ c ∈ stmt.scopes, (f c).assemble label? Block.collapse = .ok (F c) ∧
      (F c).replace old new = c.block label? Block.collapse := by
    intro c hc
    obtain ⟨C, hC, hreplace⟩ := hscopes c hc
    rw [show F c = C from block_eq hC]
    exact ⟨hC, hreplace⟩
  have hblocks : t = (stmt.map F).map (Block.replace old new) := by
    rw [eq_map_block ht, Stmt.map_map]
    exact Stmt.map_congr fun c hc => (hF c hc).2.symm
  rw [hblocks] at hbecomes
  obtain ⟨n', hn'⟩ := hbecomes.exists_of_map
  have hleaf' : ∀ m, stmt.map F = .node m → m.children = [] := by
    intro m hm
    cases stmt with
    | node m' =>
      cases hm
      exact hleaf m rfl
    | _ => cases hm
  refine ⟨n', ?_, (hn'.replace hold hleaf').unique hbecomes⟩
  rw [← hn'.assemble_eq, Stmt.map_map, Stmt.map_map]
  exact congrArg _ (Stmt.map_congr fun c hc => (hF c hc).1)

/-- A statement that becomes a node may be replaced by a switch with only a default: then this
switch is in the place of the node, and all else is assembled as before. -/
theorem assemble_update (hold : old.SoleDefault)
    (hleaf : ∀ t ∈ s.subscopes, ∀ m, .node m ∈ t.stmts → m.children = [])
    (hplace : ∀ t ∈ s.subscopes, t.frame.id = id → ∀ C,
      t.assemble label? Block.collapse = .ok C → C.nodes[i]? = some new)
    (h : s.assemble label? Block.collapse = .ok B) :
    ∃ B', (s.update id (Builder.setStmt i (.node old))).assemble label? Block.collapse = .ok B' ∧
      B'.replace old new = B := by
  induction s using induct generalizing B with
  | step s ih =>
    obtain ⟨hlocals, hall⟩ := assemble_ok h
    let f : Scope → Scope := update id (Builder.setStmt i (.node old))
    have hself : s ∈ s.subscopes := mem_subscopes_iff.mpr ⟨[], .here⟩
    have hstmts : List.Forall₂ (fun stmt n => ∃ n',
        ((stmt.map f).map (assemble label? Block.collapse)).assemble label? Block.collapse =
          .ok n' ∧ Node.replace old new n' = n) s.stmts B.nodes := by
      refine (forall₂_with_mem hall).imp ?_
      rintro stmt n ⟨hstmt, -, t, ht, hbecomes⟩
      refine assemble_stmt hold (fun m hm => hleaf s hself m (hm ▸ hstmt)) ht hbecomes ?_
      intro c hc
      obtain ⟨C, -, hC⟩ := exists_of_map ht hc
      have hchild := mem_children.mpr ⟨stmt, hstmt, hc⟩
      have hsub := subscopes_subset hchild
      rw [block_eq hC]
      exact ih c hchild (fun t ht => hleaf t (hsub ht)) (fun t ht => hplace t (hsub ht)) hC
    obtain ⟨nodes, hnodes, hback⟩ := exists_forall₂ hstmts
    have hmap : nodes.map (Node.replace old new) = B.nodes := by
      have heq := List.forall₂_map_right_iff.mpr (hback.imp fun _ _ h => h.symm)
      rw [List.forall₂_eq_eq_eq] at heq
      exact heq.symm
    have hblock : (⟨s.frame.locals, B.nodes⟩ : Block) = B := by rw [← hlocals]
    rw [update_eq]
    split
    next hid =>
      refine ⟨⟨s.frame.locals, nodes.set i old⟩, assemble_of_forall₂ ?_, ?_⟩
      · exact forall₂_set (List.forall₂_map_left_iff.mpr hnodes) i rfl
      · obtain ⟨hi, hnew⟩ := List.getElem?_eq_some_iff.mp (hplace s hself hid B h)
        rw [Block.replace, List.map_set, hmap, Node.replace_self, ← hnew, List.set_getElem_self hi,
          hblock]
    next =>
      refine ⟨⟨s.frame.locals, nodes⟩, assemble_of_forall₂ ?_, ?_⟩
      · exact List.forall₂_map_left_iff.mpr hnodes
      · rw [Block.replace, hmap, hblock]

end Scope

namespace Builder

variable {F : Fragment → Prop} {b : Builder} {a : Artifact} {outer : Chain} {s : Scope} {i : Nat}
  {old n : Node}

/-- A statement that becomes a node may be replaced by a switch with only a default: the program is
assembled, and with the node put back it is the program as it was. -/
theorem Built.assemble_changing (hb : b.Built F) (ha : b.assemble = .ok a)
    (hs : b.top.Within outer s) (hn : b.Translates a s i n) (hold : old.SoleDefault) :
    ∃ a', (b.changing s.frame.id (setStmt i (.node old))).assemble = .ok a' ∧
      a'.params = a.params ∧ a'.returnLabel = a.returnLabel ∧
      Node.replace old n a'.body = a.body := by
  obtain ⟨hparams, hreturn, B, hB, hbody⟩ := assemble_ok ha
  obtain ⟨C, hC, hi, -⟩ := hn
  have hleaf : ∀ t ∈ b.top.subscopes, ∀ m, .node m ∈ t.stmts → m.children = [] := by
    intro t ht m hm
    obtain ⟨o, ht⟩ := Scope.mem_subscopes_iff.mp ht
    obtain ⟨Γ, hfits⟩ := hb.sound.fits.exists_of_within ht
    exact (hfits.checks hm).2
  have hplace : ∀ t ∈ b.top.subscopes, t.frame.id = s.frame.id → ∀ C',
      t.assemble b.label? Block.collapse = .ok C' → C'.nodes[i]? = some n := by
    intro t ht hid C' hC'
    obtain ⟨o, ht⟩ := Scope.mem_subscopes_iff.mp ht
    obtain ⟨-, rfl⟩ := ht.unique hb.numbered.distinct hs hid
    rw [Except.ok.inj (hC'.symm.trans hC)]
    exact hi
  obtain ⟨B', hB', hreplace⟩ := Scope.assemble_update hold hleaf hplace hB
  refine ⟨_, Except.andThen_ok.mpr ⟨B', hB', rfl⟩, hparams.symm, hreturn.symm, ?_⟩
  have hlabel (l : Label) (default : Option Constant) :
      Node.replace old n (.label l default) = .label l default := hold.replace_leaf rfl
  rw [hold.replace_block, List.map_cons, List.map_singleton, hlabel, Block.replace_collapse hold,
    hreplace, hbody, Artifact.returnType, hreturn]
  rfl

end Builder

end StructuredFlow
