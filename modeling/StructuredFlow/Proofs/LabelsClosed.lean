import StructuredFlow.Proofs.AssembledPlaces
import StructuredFlow.Proofs.JumpsConsumed

/-
  The labels of a program are closed and unambiguous. A label is marked at most once; a jump leads
  to a label that is marked exactly once, or to one of the two labels of a loop around it; a jump
  by name leads to the one label of that name, wherever and whenever it was placed; and an empty
  group of a switch jumps to the start of the default (`Builder.Reachable.labels_closed`).
-/

namespace StructuredFlow

/-! ## Marks -/

namespace Node

variable {n : Node} {l : LabelId}

theorem countP_marks_le (ns : List Node) (l : LabelId) :
    ns.countP (marks l) ≤ ((ns.flatMap place).map Label.id).count l := by
  induction ns with
  | nil => exact Nat.le_refl _
  | cons n ns ih =>
    rw [List.flatMap_cons, List.map_append, List.count_append, List.countP_cons, Nat.add_comm]
    refine Nat.add_le_add ?_ ih
    split
    next hmarks =>
      cases n with
      | label target default =>
      obtain rfl := beq_iff_eq.mp hmarks
      simp [place]
      | _ => exact absurd hmarks Bool.false_ne_true
    next => exact Nat.zero_le _

/-- Where labels with a place are told apart by their numbers, none is marked twice. -/
theorem count_marks_le (h : (n.places.map Label.id).Nodup) (l : LabelId) :
    n.count (marks l) ≤ 1 :=
  (countP_marks_le n.subnodes l).trans (List.nodup_iff_count_le_one.mp h l)

theorem count_marks_eq_one (h : (n.places.map Label.id).Nodup) (hl : n.defines l = true) :
    n.count (marks l) = 1 :=
  Nat.le_antisymm (count_marks_le h l) (count_marks_pos.mpr hl)

/-- A label that is marked has a place. -/
theorem mem_places_of_mem_subnodes {target : Label} {default : Option Constant}
    (h : label target default ∈ n.subnodes) : target ∈ n.places :=
  List.mem_flatMap.mpr ⟨_, h, List.mem_singleton_self _⟩

theorem exists_mem_places (h : n.defines l = true) : ∃ target ∈ n.places, target.id = l := by
  obtain ⟨c, hc, hmarks⟩ := defines_iff.mp h
  cases c with
  | label target default =>
    exact ⟨target, mem_places_of_mem_subnodes hc, beq_iff_eq.mp hmarks⟩
  | _ => exact absurd hmarks Bool.false_ne_true

theorem defines_of_mem_subnodes {c : Node} (hc : c ∈ n.subnodes) (hl : c.defines l = true) :
    n.defines l = true := by
  obtain ⟨d, hd, hmarks⟩ := defines_iff.mp hl
  exact defines_iff.mpr ⟨d, mem_subnodes_trans hc hd, hmarks⟩

/-- The node is another one, or a block that begins with it. -/
inductive Begins (m : Node) : Node → Prop
  | alone : Begins m m
  | block (locals : List Symbol) (rest : List Node) : Begins m (.block locals (m :: rest))

theorem begins_cons (m : Node) (B : Block) : Begins m (B.cons m).collapse := by
  obtain ⟨locals, nodes⟩ := B
  unfold Block.collapse
  split
  next h => cases h
  next n h =>
    cases h
    exact .alone
  next h =>
    cases h
    exact .block _ _

end Node

/-! ## Jumps by name -/

namespace Builder

variable {F : Fragment → Prop} {b b' : Builder} {id : ScopeId} {name : String}

/-- A jump to a label by name stands in the scope of the number. -/
def HasGoto (b : Builder) (id : ScopeId) (name : String) : Prop :=
  ∃ outer s, b.top.Within outer s ∧ s.frame.id = id ∧ Stmt.goto name ∈ s.stmts

/-- A change of one scope that keeps the jump there keeps it. -/
theorem HasGoto.update {outer : Chain} {s : Scope} {f : Scope → Scope} (h : b.HasGoto id name)
    (hdistinct : b.top.Distinct) (place : b.top.Within outer s)
    (htop : b'.top = b.top.update s.frame.id f) (hframe : (f s).frame.id = s.frame.id)
    (hkeep : ∀ c ∈ s.children, c ∈ (f s).children)
    (hstmts : Stmt.goto name ∈ s.stmts → Stmt.goto name ∈ (f s).stmts) : b'.HasGoto id name := by
  obtain ⟨o, t, ht, rfl, hgoto⟩ := h
  refine ⟨_, t.update s.frame.id f, htop ▸ place.update hdistinct rfl hkeep ht, ?_⟩
  by_cases hid : t.frame.id = s.frame.id
  · obtain ⟨-, rfl⟩ := ht.unique hdistinct place hid
    rw [(ht.distinct hdistinct).update_eq rfl]
    exact ⟨hframe, hstmts hgoto⟩
  · rw [Scope.frame_update_of_ne hid, Scope.stmts_update_of_ne hid]
    exact ⟨rfl, List.mem_map.mpr ⟨_, hgoto, rfl⟩⟩

theorem Edit.keeps_goto (h : b.Edit F b') (hdistinct : b.top.Distinct) (hgoto : b.HasGoto id name) :
    b'.HasGoto id name := by
  cases h with
  | param => exact hgoto.update hdistinct .here rfl rfl (fun _ hc => hc) fun hmem => hmem
  | declare place => exact hgoto.update hdistinct place rfl rfl (fun _ hc => hc) fun hmem => hmem
  | @add outer s stmts b₁ place adds =>
    exact hgoto.update hdistinct place (by rw [changing, adds.top_eq]) rfl
      (children_addStmts stmts s) (List.mem_append_left _)
  | @grow outer s index old new b₁ place standing grows =>
    refine hgoto.update hdistinct place (by rw [changing, grows.top_eq]) rfl
      (grows.keeps_children standing) fun hmem => ?_
    obtain ⟨k, hk⟩ := List.mem_iff_getElem?.mp hmem
    have hne : index ≠ k := by
      rintro rfl
      obtain rfl := Option.some.inj (standing.symm.trans hk)
      cases grows
    refine List.mem_of_getElem? (i := k) ?_
    rw [setStmt, List.getElem?_set_ne hne, hk]

/-- A jump by name that has been placed stays where it is. -/
theorem Later.keeps_goto {b₀ b₁ : Builder} (hb : b₀.Built fun _ => True)
    (hgoto : Build.statement id (.goto name) b₀ = .ok () b₁) (hlater : b₁.Later b) :
    b.HasGoto id name := by
  have hbuilt : b₁.Built fun _ => True :=
    hb.edits ((Build.goto_keeps id name).done hb hgoto)
  have hhas : b₁.HasGoto id name := by
    obtain ⟨c, hc, hpush⟩ := (Build.chain_reads id).andThen_ok hgoto
    obtain rfl := Build.push_ok.mp hpush
    obtain ⟨outer, s, place, rfl, rfl⟩ := Scope.exists_of_chain? (Build.chain_ok.mp hc).1
    refine ⟨outer, s.push (.goto name), ?_, rfl, List.mem_append_right _ (List.mem_singleton_self _)⟩
    exact place.update_self hb.numbered.distinct rfl (children_addStmts [.goto name] s)
  have hedits := hlater.edits hbuilt
  clear hgoto hlater
  induction hedits with
  | refl => exact hhas
  | edit edits edit ih => exact edit.keeps_goto (hbuilt.edits edits).numbered.distinct ih

/-! ## What statements become -/

/-- The statement at an index of a scope becomes the node, which is one of the body. -/
def Translates (b : Builder) (a : Artifact) (s : Scope) (i : Nat) (n : Node) : Prop :=
  ∃ B, s.assemble b.label? Block.collapse = .ok B ∧ B.nodes[i]? = some n ∧ n ∈ a.body.subnodes

variable {a : Artifact} {outer : Chain} {s : Scope} {i : Nat}

theorem exists_translates (ha : b.assemble = .ok a) (hs : b.top.Within outer s)
    {stmt : Stmt Scope} (hi : s.stmts[i]? = some stmt) :
    ∃ (n : Node) (t : Stmt Block), b.Translates a s i n ∧
      stmt.map (Scope.assemble b.label? Block.collapse) = t.map .ok ∧
      t.Becomes b.label? Block.collapse n := by
  obtain ⟨-, -, B, hB, hbody⟩ := assemble_ok ha
  obtain ⟨B', hB', hnodes⟩ := Scope.exists_of_assemble Block.closes_collapse hs hB
  obtain ⟨-, hall⟩ := Scope.assemble_ok hB'
  obtain ⟨hlt, rfl⟩ := List.getElem?_eq_some_iff.mp hi
  have hlt' : i < B'.nodes.length := hall.length_eq ▸ hlt
  obtain ⟨t, ht, hbecomes⟩ := (List.forall₂_iff_get.mp hall).2 i hlt hlt'
  refine ⟨B'.nodes[i], t, ⟨B', hB', List.getElem?_eq_getElem hlt', ?_⟩, ht, hbecomes⟩
  obtain ⟨m, hm, hnm⟩ := hnodes _ (List.getElem_mem hlt')
  rw [hbody]
  refine Node.mem_subnodes_of_mem_children List.mem_cons_self ?_
  exact Node.mem_subnodes_trans (Block.closes_collapse.nodes B m hm) hnm

/-- A label that is marked in the scopes is marked in the body. -/
theorem Sound.defines_label (hb : b.Sound) (ha : b.assemble = .ok a) {l : Label} {name : String}
    (hl : b.label? name = some l) : a.body.defines l.id = true :=
  defines_of_targets ha (.inr (hb.labels l (List.mem_of_find?_eq_some hl)).1)

/-- A jump by name becomes a jump to the label of the name, the only one that is marked. -/
theorem Built.goto_translates (hb : b.Built F) (ha : b.assemble = .ok a) (hs : b.top.Within outer s)
    {name : String} (hi : s.stmts[i]? = some (.goto name)) :
    ∃ l, b.Translates a s i (.jump l) ∧ l.name = some name ∧
      a.body.count (Node.marks l.id) = 1 ∧
      ∀ l' default, Node.label l' default ∈ a.body.subnodes → l'.name = some name → l' = l := by
  obtain ⟨n, t, htranslates, ht, hbecomes⟩ := exists_translates ha hs hi
  cases hbecomes with
  | @goto name' l placed =>
    cases ht
    have hnodup := hb.placed.places_nodup Block.closes_collapse ha
    refine ⟨l, htranslates, ((hb.placed.named name l).mp placed).2, ?_, fun l' default hl' hname => ?_⟩
    · exact Node.count_marks_eq_one hnodup (hb.sound.defines_label ha placed)
    · -- The label is one of the scopes', for the return label has no name.
      have hmem := (places_of_assemble Block.closes_collapse ha).subset
        (Node.mem_places_of_mem_subnodes hl')
      rcases List.mem_cons.mp hmem with rfl | hmem
      · rw [hb.placed.unnamed] at hname
        cases hname
      · exact Option.some.inj (((hb.placed.named name l').mpr ⟨hmem, hname⟩).symm.trans placed)
  | _ => cases ht

/-- A scope is assembled to an empty block if it has no statements and no locals. -/
theorem isEmpty_iff_of_assemble {label? : String → Option Label} {close : Block → Node} {c : Scope}
    {B : Block} (h : c.assemble label? close = .ok B) :
    B.isEmpty = true ↔ c.stmts = [] ∧ c.frame.locals = [] := by
  obtain ⟨hB, hall⟩ := Scope.assemble_ok h
  rw [Block.isEmpty, Bool.and_eq_true, List.isEmpty_iff, List.isEmpty_iff, hB]
  refine and_congr_left fun _ => ⟨fun hnodes => ?_, fun hstmts => ?_⟩
  · rw [hnodes] at hall
    exact List.forall₂_nil_right_iff.mp hall
  · rw [hstmts] at hall
    exact List.forall₂_nil_left_iff.mp hall

/-- By its number a scope is assembled to what it is assembled to where it stands. -/
theorem Built.assembleScope_eq (hb : b.Built F) (hs : b.top.Within outer s) {B : Block}
    (hB : s.assemble b.label? Block.collapse = .ok B) :
    b.assembleScope s.frame.id = .ok B.collapse := by
  rw [assembleScope, hs.find?_eq hb.numbered.distinct]
  show (do let B ← s.assemble b.label? Block.collapse; return B.collapse) = _
  rw [hB]
  rfl

/-- An empty group becomes a jump to the label with which the default begins. -/
theorem Built.switch_translates (hb : b.Built F) (ha : b.assemble = .ok a)
    (hs : b.top.Within outer s) {value : Expr} {groups : List (Arm (Option Scope))} {fall : Label}
    {d : Scope} (hi : s.stmts[i]? = some (.switch value groups (some (fall, d))))
    (hgroups : groups ≠ []) :
    ∃ arms first, b.Translates a s i (.switch value arms (some first)) ∧
      ∀ (k : Nat) g, groups[k]? = some g → (∀ c ∈ g.body, c.stmts = [] ∧ c.frame.locals = []) →
        arms[k]? = some ⟨g.values, .jump fall⟩ ∧ Node.Begins (.mark fall) first ∧
          a.body.count (Node.marks fall.id) = 1 := by
  obtain ⟨n, t, htranslates, ht, hbecomes⟩ := exists_translates ha hs hi
  cases hbecomes with
  | soleDefault value' fall' body =>
    simp only [Stmt.map, Stmt.switch.injEq, List.map_nil, List.map_eq_nil_iff] at ht
    exact absurd ht.2.1 hgroups
  | @switch value' groups' default' nonempty =>
    simp only [Stmt.map, Stmt.switch.injEq] at ht
    obtain ⟨rfl, hmap, hdefault⟩ := ht
    obtain ⟨⟨fall', D⟩, rfl, hD⟩ := Option.map_eq_some_iff.mp hdefault.symm
    obtain ⟨rfl, -⟩ := Prod.mk.inj hD
    refine ⟨_, _, htranslates, fun k g hk hempty => ?_⟩
    obtain ⟨hlt, rfl⟩ := List.getElem?_eq_some_iff.mp hk
    have hall := forall₂_of_map_eq hmap
    have hlt' : k < groups'.length := hall.length_eq ▸ hlt
    have hg := (List.forall₂_iff_get.mp hall).2 k hlt hlt'
    simp only [List.get_eq_getElem, Arm.mk.injEq] at hg
    obtain ⟨hvalues, hbody⟩ := hg
    have hisEmpty : (groups'[k].body.getD .empty).isEmpty = true := by
      cases hC : groups'[k].body with
      | none => rfl
      | some C =>
        rw [hC] at hbody
        obtain ⟨c, hc, hok⟩ := Option.map_eq_some_iff.mp hbody
        obtain ⟨hstmts, hlocals⟩ := hempty c hc
        exact (isEmpty_iff_of_assemble hok).mpr ⟨hstmts, hlocals⟩
    have hany : (groups'.map fun g => (⟨g.values, g.body.getD .empty⟩ : Arm Block)).any
        (·.body.isEmpty) = true :=
      List.any_eq_true.mpr ⟨_, List.mem_map_of_mem (List.getElem_mem hlt'), hisEmpty⟩
    have hfirst : Node.Begins (.mark fall') (D.cons (.mark fall')).collapse := Node.begins_cons _ _
    refine ⟨?_, ?_, ?_⟩
    · rw [List.getElem?_map, List.getElem?_map, List.getElem?_eq_getElem hlt']
      simp only [Option.map_some, Node.ofSwitch.arm, hisEmpty, if_true, hvalues]
    · dsimp only
      rw [if_pos hany]
      exact hfirst
    · have hmarks : (D.cons (.mark fall')).collapse.defines fall'.id = true :=
        Block.defines_cons_mark fall' D
      obtain ⟨B, -, -, hmem⟩ := htranslates
      refine Node.count_marks_eq_one (hb.placed.places_nodup Block.closes_collapse ha) ?_
      refine Node.defines_of_mem_subnodes hmem (Node.defines_of_mem_children ?_ hmarks)
      refine List.mem_append_right _ (Option.mem_toList.mpr ?_)
      rw [if_pos hany]
  | _ => cases ht

/-- A jump leads to a label that is marked once, or to one of a loop around it. -/
theorem Reachable.jump_leads (hb : b.Reachable) (ha : b.assemble = .ok a) {around : List Node}
    {hs : List (Handler Node)} {l : Label} {v : Option Expr}
    (h : a.body.Stands around hs (.goto l v)) :
    a.body.count (Node.marks l.id) = 1 ∨ ∃ body leave next,
      .loop body leave next ∈ around ∧ (l.id = leave.id ∨ l.id = next.id) := by
  have hnodup := hb.built.placed.places_nodup Block.closes_collapse ha
  obtain ⟨Γ, hfits, htargets⟩ := h.fits (hb.body_fits ha)
  rcases htargets l.id (hfits.checks.jump l v rfl).target with hl | ⟨p, hp, htakes⟩
  · exact .inl (Node.count_marks_eq_one hnodup hl)
  · cases htakes with
    | place placed =>
      obtain ⟨c, hc, hl⟩ := placed
      refine .inl (Node.count_marks_eq_one hnodup ?_)
      exact Node.defines_of_mem_subnodes (h.around_mem_subnodes hp)
        (Node.defines_of_mem_children hc hl)
    | leave isLeave => exact .inr ⟨_, _, _, hp, .inl isLeave⟩
    | next isNext => exact .inr ⟨_, _, _, hp, .inr isNext⟩

/-- The return label is marked at the end of the body and nowhere else. -/
theorem Built.return_marked (hb : b.Built F) (ha : b.assemble = .ok a) :
    ∃ top, a.body = .block [] [top, .label a.returnLabel (Constant.zero? a.returnType)] ∧
      top.count (Node.marks a.returnLabel.id) = 0 := by
  obtain ⟨-, hreturn, B, hB, hbody⟩ := assemble_ok ha
  refine ⟨B.collapse, hbody, Nat.eq_zero_of_not_pos fun hpos => ?_⟩
  obtain ⟨l, hl, hid⟩ := Node.exists_mem_places (Node.count_marks_pos.mp hpos)
  rw [Block.closes_collapse.places] at hl
  have hids := hb.placed.ids
  rw [List.map_cons, List.nodup_cons, ← hreturn, ← hid] at hids
  exact hids.1 (List.mem_map_of_mem ((Scope.places_of_assemble Block.closes_collapse hB).subset hl))

/-- The labels of a program are closed and unambiguous: no two labels with a place share a number,
so none is marked twice; the return label is marked at the end, and nowhere else. Every jump leads to
a label that is marked once, or to one of a loop around it.
A jump by name that was made at any time is still there, and becomes a jump to the one label of its
name. And an empty group of a switch with a default jumps to the label with which the default
begins. -/
theorem Reachable.labels_closed (hb : b.Reachable) (ha : b.assemble = .ok a) :
    (a.body.places.map Label.id).Nodup ∧ (∀ l, a.body.count (Node.marks l) ≤ 1) ∧
      (∃ top, a.body = .block [] [top, .label a.returnLabel (Constant.zero? a.returnType)] ∧
        top.count (Node.marks a.returnLabel.id) = 0) ∧
      (∀ around hs l v, a.body.Stands around hs (.goto l v) →
        a.body.count (Node.marks l.id) = 1 ∨ ∃ body leave next,
          .loop body leave next ∈ around ∧ (l.id = leave.id ∨ l.id = next.id)) ∧
      (∀ b₀ b₁ id name, Reachable b₀ → Build.statement id (.goto name) b₀ = .ok () b₁ →
        b₁.Later b → b.HasGoto id name) ∧
      (∀ outer s i name, b.top.Within outer s → s.stmts[i]? = some (.goto name) →
        ∃ l, b.Translates a s i (.jump l) ∧ l.name = some name ∧
          a.body.count (Node.marks l.id) = 1 ∧
          ∀ l' default, .label l' default ∈ a.body.subnodes → l'.name = some name → l' = l) ∧
      ∀ outer s i value groups fall d, b.top.Within outer s →
        s.stmts[i]? = some (.switch value groups (some (fall, d))) → groups ≠ [] →
        ∃ arms first, b.Translates a s i (.switch value arms (some first)) ∧
          ∀ (k : Nat) g, groups[k]? = some g →
            (∀ c ∈ g.body, c.stmts = [] ∧ c.frame.locals = []) →
            arms[k]? = some ⟨g.values, .jump fall⟩ ∧ Node.Begins (.mark fall) first ∧
              a.body.count (Node.marks fall.id) = 1 := by
  have hnodup := hb.built.placed.places_nodup Block.closes_collapse ha
  refine ⟨hnodup, Node.count_marks_le hnodup, hb.built.return_marked ha, ?_, ?_, ?_, ?_⟩
  · exact fun around hs l v h => hb.jump_leads ha h
  · exact fun b₀ b₁ id name hb₀ hgoto hlater => hlater.keeps_goto hb₀.built hgoto
  · exact fun outer s i name hs hi => hb.built.goto_translates ha hs hi
  · exact fun outer s i value groups fall d hs hi hgroups =>
      hb.built.switch_translates ha hs hi hgroups

/-- A jump out of a switch to a label that is placed later; one group of the switch is empty. -/
theorem labels_closed_in_switch :
    ∃ (b : Builder) (a : Artifact), b.Reachable ∧ b.assemble = .ok a ∧
      (∃ l, b.Translates a ⟨⟨1, .plain, [], []⟩, [.goto "end"]⟩ 0 (.jump l) ∧
        l.name = some "end" ∧ a.body.count (Node.marks l.id) = 1) ∧
      a.body.count (Node.marks 1) = 1 := by
  obtain ⟨b, hb⟩ : ∃ b, Builder.create ⟨"f", false⟩ [⟨"x", .int⟩] .void = .ok b := ⟨_, rfl⟩
  have hswitch := (Reachable.create hb).opening 0 (.switchOn ⟨[], .const (.int 0)⟩)
  have hcase := hswitch.step (h := .switch ⟨0, 0⟩) (s := .case ⟨[], .const (.int 1)⟩) rfl
  have hdefault := hcase.step (h := .switch ⟨0, 0⟩) (s := .default) rfl
  have hgoto := hdefault.statement 1 (.goto "end")
  have hlabel := hgoto.statement 0 (.label "end")
  cases hb
  obtain ⟨b, hb, ⟨a, ha⟩, htop⟩ : ∃ b : Builder, b.Reachable ∧ (∃ a, b.assemble = .ok a) ∧
      b.top = ⟨⟨0, .plain, [], [⟨0, "x", .int⟩]⟩,
        [.switch (.const (.int 0)) [⟨[.const (.int 1)], none⟩]
            (some (.internal 1, ⟨⟨1, .plain, [], []⟩, [.goto "end"]⟩)),
          .node (.mark (.named 2 "end"))]⟩ := ⟨_, hlabel, ⟨_, rfl⟩, rfl⟩
  obtain ⟨-, -, -, -, -, hgotos, hswitches⟩ := hb.labels_closed ha
  have hplace : b.top.Within [] b.top := .here
  have hdefault : b.top.Within [b.top.frame] ⟨⟨1, .plain, [], []⟩, [.goto "end"]⟩ :=
    hplace.inside (by rw [htop]; exact List.mem_singleton_self _)
  obtain ⟨l, htranslates, hl, hcount, -⟩ := hgotos _ _ 0 "end" hdefault rfl
  obtain ⟨arms, first, -, hgroups⟩ := hswitches _ _ 0 _ _ _ _ hplace (by rw [htop]; rfl)
    (List.cons_ne_nil _ _)
  obtain ⟨-, -, hfall⟩ := hgroups 0 _ rfl nofun
  exact ⟨b, a, hb, ha, ⟨l, htranslates, hl, hcount⟩, hfall⟩

end Builder

end StructuredFlow
