import StructuredFlow.Proofs.LabelsClosed
import StructuredFlow.Proofs.LoopsAround
import StructuredFlow.Proofs.NamesStable
import StructuredFlow.Proofs.Sites

/-
  A jump out of a loop, or to its next round, belongs to the innermost loop. The builder finds the
  loop along the chain of the scope; in the program it is the innermost loop among the nodes around
  the jump, whatever else assembly has put between them (`Scope.jumpsInmost_of_assemble`). Labels
  have one place each, so no jump to a label of a loop can mean anything else
  (`Builder.Reachable.jump_innermost`).
-/

namespace StructuredFlow

variable {free : LabelId → Prop} {around : Option (Label × Label)}

/-! ## Constructs -/

namespace Node

theorem JumpsInmost.of_children {n : Node} (hjump : ∀ l v, n ≠ .goto l v)
    (hloop : n.loopLabels? = none) (h : ∀ c ∈ n.children, c.JumpsInmost free around) :
    n.JumpsInmost free around := by
  refine .intro (fun l v hn => absurd hn (hjump l v)) fun c hc => ?_
  rw [hloop]
  exact h c hc

theorem jumpsInmost_nop : nop.JumpsInmost free around :=
  .leaf rfl nofun

theorem jumpsInmost_mark (l : Label) : (mark l).JumpsInmost free around :=
  .leaf rfl nofun

theorem jumpsInmost_switch {value : Expr} {arms : List (Arm Node)} {default : Option Node}
    (harms : ∀ c ∈ arms.map Arm.body, c.JumpsInmost free around)
    (hdefault : ∀ c ∈ default.toList, c.JumpsInmost free around) :
    (switch value arms default).JumpsInmost free around :=
  .of_children nofun rfl (List.forall_mem_append.mpr ⟨harms, hdefault⟩)

theorem jumpsInmost_branch {test : Expr} {yes no : Node} (hyes : yes.JumpsInmost free around)
    (hno : no.JumpsInmost free around) : (branch test yes no).JumpsInmost free around := by
  refine .of_children nofun rfl (List.forall_mem_cons.mpr ⟨hyes, ?_⟩)
  exact List.forall_mem_singleton.mpr hno

/-- What the body of a loop jumps to is a label of this loop, whatever is around. -/
theorem jumpsInmost_ofLoop {l : Loop} {body : Node}
    (h : body.JumpsInmost free (some (l.leave, l.next))) :
    (ofLoop l body).JumpsInmost free around := by
  refine .intro nofun (List.forall_mem_singleton.mpr (jumpsInmost_branch h ?_))
  exact .goto none (.inr ⟨_, rfl, .inl rfl⟩)

theorem jumpsInmost_disposal (s : Symbol) : (disposal s).JumpsInmost free around := by
  unfold disposal
  dsimp only
  split
  · exact jumpsInmost_branch (.leaf rfl nofun) jumpsInmost_nop
  · exact .leaf rfl nofun

theorem jumpsInmost_withCleanup (s : Symbol) (producer : Expr) {body : Node}
    (h : body.JumpsInmost free around) : (withCleanup s producer body).JumpsInmost free around := by
  refine .of_children nofun rfl (List.forall_mem_cons.mpr ⟨.leaf rfl nofun, ?_⟩)
  refine List.forall_mem_singleton.mpr (.of_children nofun rfl ?_)
  exact List.forall_mem_cons.mpr ⟨h, List.forall_mem_singleton.mpr (jumpsInmost_disposal s)⟩

theorem jumpsInmost_ofIteration (iterator : Symbol) (collection : Expr) {walk : Node}
    (h : walk.JumpsInmost free around) :
    (ofIteration iterator collection walk).JumpsInmost free around := by
  unfold ofIteration
  dsimp only
  split
  · exact jumpsInmost_withCleanup iterator _ h
  · refine .of_children nofun rfl (List.forall_mem_cons.mpr ⟨.leaf rfl nofun, ?_⟩)
    exact List.forall_mem_singleton.mpr h

theorem jumpsInmost_ofLinks {links : List (Expr × Node)} {otherwise : Node}
    (hlinks : ∀ link ∈ links, link.2.JumpsInmost free around)
    (hotherwise : otherwise.JumpsInmost free around) :
    (ofLinks links otherwise).JumpsInmost free around := by
  induction links with
  | nil => exact hotherwise
  | cons link links ih =>
    obtain ⟨hlink, hlinks⟩ := List.forall_mem_cons.mp hlinks
    exact jumpsInmost_branch hlink (ih hlinks)

end Node

/-- The statements of the block are such. -/
def Block.JumpsInmost (free : LabelId → Prop) (around : Option (Label × Label)) (B : Block) :
    Prop :=
  ∀ n ∈ B.nodes, n.JumpsInmost free around

theorem Block.JumpsInmost.collapse {B : Block} (h : B.JumpsInmost free around) :
    B.collapse.JumpsInmost free around := by
  obtain ⟨locals, nodes⟩ := B
  unfold Block.collapse
  split
  next heq =>
    cases heq
    exact Node.jumpsInmost_nop
  next n heq =>
    cases heq
    exact h n (List.mem_singleton_self n)
  next heq =>
    cases heq
    exact .of_children nofun rfl h

namespace Node

/-- The jumps that a switch gets for empty groups lead to the label before the default's first
statement, which is free to jump to. -/
theorem jumpsInmost_ofSwitch {value : Expr} {groups : List (Arm Block)}
    {default : Option (Label × Block)} (hgroups : ∀ g ∈ groups, g.body.JumpsInmost free around)
    (hdefault : ∀ d ∈ default, d.2.JumpsInmost free around)
    (hfall : ∀ d ∈ default, groups.any (·.body.isEmpty) = true → free d.1.id) :
    (ofSwitch Block.collapse value groups default).JumpsInmost free around := by
  have harms : ∀ otherwise,
      (groups.any (·.body.isEmpty) = true → otherwise.JumpsInmost free around) →
      ∀ c ∈ (groups.map (ofSwitch.arm Block.collapse otherwise)).map Arm.body,
        c.JumpsInmost free around := by
    intro otherwise hotherwise
    refine List.forall_mem_map.mpr (List.forall_mem_map.mpr fun g hg => ?_)
    rw [ofSwitch.arm]
    dsimp only
    split
    next hempty => exact hotherwise (List.any_eq_true.mpr ⟨g, hg, hempty⟩)
    next => exact (hgroups g hg).collapse
  cases default with
  | none => exact jumpsInmost_switch (harms nop fun _ => jumpsInmost_nop) (List.forall_mem_nil _)
  | some d =>
    obtain ⟨fall, body⟩ := d
    refine jumpsInmost_switch (harms _ fun hany => .goto none (.inl (hfall _ rfl hany))) ?_
    refine List.forall_mem_singleton.mpr (Block.JumpsInmost.collapse ?_)
    split
    · exact List.forall_mem_cons.mpr ⟨jumpsInmost_mark fall, hdefault _ rfl⟩
    · exact hdefault _ rfl

end Node

/-! ## Statements and scopes -/

/-- What a statement becomes has its jumps where the statement has them. Jumps by name, and those to
labels placed in it, may lead anywhere. -/
theorem Stmt.Becomes.jumpsInmost {label? : String → Option Label} {t : Stmt Block} {n : Node}
    (h : t.Becomes label? Block.collapse n)
    (hnode : ∀ m, t = .node m → m.JumpsInmost free around)
    (hinner : ∀ B ∈ t.scopes, B.JumpsInmost free (t.loopLabels?.or around))
    (hlabels : ∀ name l, label? name = some l → free l.id)
    (hplaced : ∀ l, n.defines l = true → free l) : n.JumpsInmost free around := by
  cases h with
  | node n => exact hnode n rfl
  | goto placed => exact .goto none (.inl (hlabels _ _ placed))
  | conditional links otherwise =>
    obtain ⟨hlinks, hotherwise⟩ := List.forall_mem_append.mp hinner
    refine Node.jumpsInmost_ofLinks (List.forall_mem_map.mpr fun l hl => ?_) ?_
    · exact (hlinks l.2 (List.mem_map_of_mem hl)).collapse
    · cases otherwise with
      | none => exact Node.jumpsInmost_nop
      | some B => exact (hotherwise B (List.mem_singleton_self B)).collapse
  | loop l body => exact Node.jumpsInmost_ofLoop (hinner body (List.mem_singleton_self _)).collapse
  | iteration iterator collection l body =>
    refine Node.jumpsInmost_ofIteration _ _ (Node.jumpsInmost_ofLoop ?_)
    exact (hinner body (List.mem_singleton_self _)).collapse
  | soleDefault value fall body => exact (hinner body (List.mem_singleton_self _)).collapse
  | @switch value groups default nonempty =>
    obtain ⟨hgroups, hdefault⟩ := List.forall_mem_append.mp hinner
    refine Node.jumpsInmost_ofSwitch (List.forall_mem_map.mpr fun g hg => ?_) (fun d hd => ?_) ?_
    · cases hbody : g.body with
      | none => exact fun n hn => absurd hn List.not_mem_nil
      | some B => exact hgroups B (List.mem_filterMap.mpr ⟨g, hg, hbody⟩)
    · exact hdefault d.2 (Option.mem_toList.mpr (Option.mem_map_of_mem Prod.snd hd))
    · intro d hd hany
      obtain rfl := Option.mem_def.mp hd
      refine hplaced _ (Node.defines_of_mem_children ?_ (Block.defines_cons_mark d.1 d.2))
      refine List.mem_append_right _ (Option.mem_toList.mpr ?_)
      rw [if_pos hany]
  | @attempt body handlers cleanup guarded =>
    obtain ⟨hbody, hrest⟩ := List.forall_mem_cons.mp hinner
    obtain ⟨hhandlers, hcleanup⟩ := List.forall_mem_append.mp hrest
    refine .of_children nofun rfl (List.forall_mem_cons.mpr ⟨hbody.collapse, ?_⟩)
    refine List.forall_mem_append.mpr ⟨?_, fun c hc => ?_⟩
    · refine List.forall_mem_map.mpr (List.forall_mem_map.mpr fun h hh => ?_)
      exact (hhandlers h.body (List.mem_map_of_mem hh)).collapse
    · obtain ⟨B, hB, rfl⟩ := Option.map_eq_some_iff.mp (Option.mem_toList.mp hc)
      exact (hcleanup B (Option.mem_toList.mpr hB)).collapse
  | resource s producer body =>
    exact Node.jumpsInmost_withCleanup _ _ (hinner body (List.mem_singleton_self _)).collapse

/-- The statements of a scope are assembled to nodes whose jumps lead to the innermost loop. -/
theorem Scope.jumpsInmost_of_assemble {label? : String → Option Label} {s : Scope} {B : Block}
    (hs : s.JumpsInmost free around) (h : s.assemble label? Block.collapse = .ok B)
    (hlabels : ∀ name l, label? name = some l → free l.id)
    (hplaced : ∀ l, B.collapse.defines l = true → free l) : B.JumpsInmost free around := by
  induction s using induct generalizing around B with
  | step s ih =>
    obtain ⟨-, hall⟩ := assemble_ok h
    intro n hn
    obtain ⟨stmt, hstmt, t, ht, hbecomes⟩ := exists_left_of_forall₂ hall hn
    have hplaced : ∀ l, n.defines l = true → free l := by
      intro l hl
      refine hplaced l ?_
      rw [Block.defines_collapse]
      exact List.any_eq_true.mpr ⟨n, hn, hl⟩
    have hloop : t.loopLabels? = stmt.loopLabels? := by
      rw [← Stmt.loopLabels?_map (Except.ok : Block → Assembled Block), ← ht, Stmt.loopLabels?_map]
    refine hbecomes.jumpsInmost (fun m hm => ?_) (fun C hC => ?_) hlabels hplaced
    · refine (hs.stmt hstmt).node m (Stmt.eq_node_of_map (f := assemble label? Block.collapse) ?_)
      rw [ht, hm]
      rfl
    · obtain ⟨c, hc, hok⟩ := exists_left_of_forall₂ (forall₂_of_map ht) hC
      rw [hloop]
      refine ih c (mem_children.mpr ⟨stmt, hstmt, hc⟩) ((hs.stmt hstmt).inner c hc) hok ?_
      exact fun l hl => hplaced l (hbecomes.defines hC hl)

/-! ## Programs -/

/-- Where labels with a place are told apart by their numbers, a number has one place. -/
theorem Node.eq_of_place {n p q : Node} {l m : Label} (h : (n.places.map Label.id).Nodup)
    (hp : p ∈ n.subnodes) (hq : q ∈ n.subnodes) (hl : l ∈ p.place) (hm : m ∈ q.place)
    (hid : l.id = m.id) : p = q :=
  Label.eq_of_nodup h hp hq hl hm hid

namespace Builder

variable {F : Fragment → Prop} {b b₁ b₂ : Builder} {a : Artifact}

/-- In the body of a program, a jump leads to a label with a mark or to a label of the innermost
loop around it. -/
theorem Built.body_jumpsInmost (hb : b.Built F) (ha : b.assemble = .ok a) :
    a.body.JumpsInmost (a.body.defines · = true) none := by
  obtain ⟨-, -, B, hB, hbody⟩ := assemble_ok ha
  have hplaced : ∀ l, B.collapse.defines l = true → a.body.defines l = true := by
    intro l hl
    rw [hbody]
    exact Node.defines_of_mem_children List.mem_cons_self hl
  have hstmts : B.JumpsInmost (a.body.defines · = true) none := by
    refine Scope.jumpsInmost_of_assemble (hb.jumpsInmost.inside.mono ?_) hB ?_ hplaced
    · exact fun l => defines_of_targets ha
    · exact fun name l hl => hb.sound.defines_label ha hl
  rw [hbody] at hstmts ⊢
  refine .of_children nofun rfl (List.forall_mem_cons.mpr ⟨hstmts.collapse, ?_⟩)
  exact List.forall_mem_singleton.mpr (.leaf rfl nofun)

/-- The loop that a frame is the body of is in the program. -/
theorem Built.loop_mem_subnodes (hb : b.Built F) (ha : b.assemble = .ok a) {outer : Chain}
    {s : Scope} (hs : b.top.Within outer s) {leave next : Label}
    (hrole : s.frame.loopLabels? = some (leave, next)) :
    ∃ body, Node.loop body leave next ∈ a.body.subnodes := by
  cases hs with
  | here =>
    rw [hb.jumpsInmost.outside] at hrole
    cases hrole
  | @inside outer u _ hu hc =>
    obtain ⟨stmt, hstmt, hc⟩ := Scope.mem_children.mp hc
    rw [((hb.jumpsInmost.of_within hu).stmt hstmt).roles s hc] at hrole
    obtain ⟨i, hi⟩ := List.mem_iff_getElem?.mp hstmt
    obtain ⟨n, t, ⟨-, -, -, hn⟩, ht, hbecomes⟩ := exists_translates ha hu hi
    have hloop : t.loopLabels? = some (leave, next) := by
      rw [← hrole, ← Stmt.loopLabels?_map (Except.ok : Block → Assembled Block), ← ht,
        Stmt.loopLabels?_map]
    cases hbecomes with
    | loop l body =>
      cases hloop
      exact ⟨_, hn⟩
    | iteration iterator collection l body =>
      cases hloop
      have hwalk := (Node.ofLoop l body.collapse).self_mem_subnodes
      exact ⟨_, Node.mem_subnodes_trans hn (Node.mem_subnodes_ofIteration hwalk)⟩
    | _ => cases hloop

end Builder

/-! ## Jumps of loops -/

/-- Which of the two labels of a loop a jump leads to. -/
def LoopTarget.label (labels : Label × Label) : LoopTarget → Label
  | leave => labels.1
  | next => labels.2

namespace Build

open Outcome

variable {b b' : Builder} {id : ScopeId} {j : LoopTarget}

/-- A jump is put into a scope whose chain leads through a loop, and led to the innermost one. -/
theorem jump_ok :
    statement id (.jump j) b = .ok () b' ↔ ∃ c labels, b.top.chain? id = some c ∧
      c.loopLabels? = some labels ∧
      b' = b.changing id (Builder.addStmts [.node (.jump (j.label labels))]) := by
  constructor
  · intro h
    obtain ⟨c, hc, h⟩ := (chain_reads id).andThen_ok h
    cases hl : c.loopLabels? with
    | none =>
      rw [hl] at h
      exact (throw_ok.mp h).elim
    | some labels =>
      rw [hl] at h
      refine ⟨c, labels, (chain_ok.mp hc).1, hl, (pushNode_ok.mp h).trans ?_⟩
      cases j <;> rfl
  · rintro ⟨c, labels, hc, hl, rfl⟩
    refine andThen_ok.mpr ⟨c, b, chain_ok.mpr ⟨hc, rfl⟩, ?_⟩
    rw [hl]
    refine pushNode_ok.mpr ?_
    cases j <;> rfl

end Build

namespace Builder

variable {b b₁ b₂ : Builder} {a : Artifact} {id : ScopeId} {j : LoopTarget}

/-- The jump is accepted wherever the chain leads through the body of a loop. -/
theorem jump_accepted_iff :
    (∃ b₁, Build.statement id (.jump j) b = .ok () b₁) ↔
      ∃ fr ∈ b.chain id, ∃ leave next, fr.role = .loopBody leave next := by
  constructor
  · rintro ⟨b₁, h⟩
    obtain ⟨c, ⟨leave, next⟩, hc, hl, -⟩ := Build.jump_ok.mp h
    obtain ⟨fr, hfr, hrole⟩ := List.exists_of_findSome?_eq_some hl
    refine ⟨fr, ?_, leave, next, Frame.loopLabels?_eq_some.mp hrole⟩
    rwa [chain, hc]
  · rintro ⟨fr, hfr, leave, next, hrole⟩
    cases hc : b.top.chain? id with
    | none =>
      rw [chain, hc] at hfr
      exact absurd hfr List.not_mem_nil
    | some c =>
      rw [chain, hc] at hfr
      have hsome : (c.findSome? Frame.loopLabels?).isSome := by
        refine List.findSome?_isSome_iff.mpr ⟨fr, hfr, ?_⟩
        rw [Frame.loopLabels?_eq_some.mpr hrole]
        rfl
      obtain ⟨labels, hl⟩ := Option.isSome_iff_exists.mp hsome
      exact ⟨_, Build.jump_ok.mpr ⟨c, labels, hc, hl, rfl⟩⟩

/-- A jump that was accepted stands at a new site of its scope and stays there, and the chain of the
scope still leads to the loop that the jump was made for. -/
theorem Later.keeps_jump (hb : b.Built fun _ => True)
    (h : Build.statement id (.jump j) b = .ok () b₁) (later : b₁.Later b₂) :
    ∃ labels outer s i, (b.chain id).loopLabels? = some labels ∧ b.at? ⟨id, i⟩ = none ∧
      b₂.top.Within outer s ∧ s.frame.id = id ∧
      s.stmts[i]? = some (.node (.jump (j.label labels))) ∧
      Chain.loopLabels? (s.frame :: outer) = some labels := by
  have edits := (Build.jump_keeps id j).done hb h
  have hb₁ : b₁.Built fun _ => True := hb.edits edits
  obtain ⟨c, labels, hc, hl, rfl⟩ := Build.jump_ok.mp h
  obtain ⟨s₀, hs₀⟩ := Build.find?_of_chain? hc
  obtain ⟨hnew, hat⟩ := at?_addStmts _ hb.numbered hb₁.numbered hs₀ rfl 0
  obtain ⟨stmt, hat', hkind⟩ := later.at?_kept hb₁ hat
  obtain rfl : stmt = .node (.jump (j.label labels)) := by
    cases stmt with
    | node n =>
      cases hkind
      rfl
    | _ => cases hkind
  obtain ⟨outer, s, place, hid, hi⟩ := exists_of_at? hat'
  obtain ⟨c', hc', kept⟩ := (edits.trans (later.edits hb₁)).chain_kept hb hc
  have hchain := place.chain?_eq (hb₁.edits (later.edits hb₁)).numbered.distinct
  rw [hid, hc'] at hchain
  obtain rfl := Option.some.inj hchain
  refine ⟨labels, outer, s, _, ?_, hnew, place, hid, hi, kept.loopLabels?.trans hl⟩
  rw [chain, hc]
  exact hl

/-- A jump to a label of a loop of the program has that loop around it, with no other one between.
The label has its place at this loop and nowhere else. -/
theorem Built.innermost_of_jump (hb : b.Built F) (ha : b.assemble = .ok a) {body : Node}
    {leave next l : Label} (hloop : .loop body leave next ∈ a.body.subnodes)
    (hl : l = leave ∨ l = next) :
    (∀ p ∈ a.body.subnodes, l.id ∈ p.place.map Label.id → p = .loop body leave next) ∧
      ∀ around hs, a.body.Stands around hs (.jump l) →
        ∃ inner outer, around = inner ++ .loop body leave next :: outer ∧
          ∀ p ∈ inner, p.loopLabels? = none := by
  have hplace : l ∈ (Node.loop body leave next).place := by
    rcases hl with rfl | rfl
    · exact List.mem_cons_self
    · exact List.mem_cons_of_mem _ (List.mem_singleton_self _)
  have hnodup := hb.placed.places_nodup Block.closes_collapse ha
  have honly : ∀ p ∈ a.body.subnodes, l.id ∈ p.place.map Label.id → p = .loop body leave next := by
    intro p hp hmem
    obtain ⟨m, hm, hid⟩ := List.mem_map.mp hmem
    exact Node.eq_of_place hnodup hp hloop hm hplace hid
  refine ⟨honly, fun around hs hstands => ?_⟩
  rcases ((hb.body_jumpsInmost ha).stands hstands).jump with hmarked | ⟨p, hp, hlp⟩
  · -- A node that marks the label would be another place of it.
    obtain ⟨d, hd, hmarks⟩ := Node.defines_iff.mp hmarked
    cases d with
    | label target default =>
      cases honly _ hd (List.mem_singleton.mpr (beq_iff_eq.mp hmarks).symm)
    | _ => exact absurd hmarks Bool.false_ne_true
  · rw [Option.or_none] at hp
    obtain ⟨inner, d, outer, rfl, hd, hinner⟩ := List.findSome?_eq_some_iff.mp hp
    have hmem := hstands.around_mem_subnodes (List.mem_append_right inner List.mem_cons_self)
    cases d with
    | loop body' leave' next' =>
      cases hd
      have hl' : l ∈ (Node.loop body' leave' next').place := by
        rcases hlp with rfl | rfl
        · exact List.mem_cons_self
        · exact List.mem_cons_of_mem _ (List.mem_singleton_self _)
      exact ⟨inner, outer, by rw [honly _ hmem (List.mem_map_of_mem hl')], hinner⟩
    | _ => cases hd

/-- A jump out of a loop or to its next round is accepted in a scope exactly if the chain of the
scope leads through the body of a loop. It comes to stand at a new site of the scope, and whatever
is done to the builder afterwards, it becomes a jump to that label of the innermost loop along the
chain. This loop is in the program, the label has its place there and nowhere else, and wherever a
jump to the label stands, the loop is the innermost one around. -/
theorem Reachable.jump_innermost (hb : b.Reachable) (id : ScopeId) (j : LoopTarget) :
    ((∃ b₁, Build.statement id (.jump j) b = .ok () b₁) ↔
        ∃ fr ∈ b.chain id, ∃ leave next, fr.role = .loopBody leave next) ∧
      ∀ b₁ b₂ a, Build.statement id (.jump j) b = .ok () b₁ → b₁.Later b₂ →
        b₂.assemble = .ok a →
        ∃ leave next l, (b.chain id).loopLabels? = some (leave, next) ∧
          l = j.label (leave, next) ∧
          (∃ outer s i, b.at? ⟨id, i⟩ = none ∧ b₂.top.Within outer s ∧ s.frame.id = id ∧
            s.stmts[i]? = some (.node (.jump l)) ∧ b₂.Translates a s i (.jump l)) ∧
          ∃ body, .loop body leave next ∈ a.body.subnodes ∧
            (∀ p ∈ a.body.subnodes, l.id ∈ p.place.map Label.id → p = .loop body leave next) ∧
            ∀ around hs, a.body.Stands around hs (.jump l) →
              ∃ inner outer, around = inner ++ .loop body leave next :: outer ∧
                ∀ p ∈ inner, p.loopLabels? = none := by
  refine ⟨jump_accepted_iff, fun b₁ b₂ a h later ha => ?_⟩
  have hb₁ : b₁.Built fun _ => True := hb.built.edits ((Build.jump_keeps id j).done hb.built h)
  have hb₂ := hb₁.edits (later.edits hb₁)
  obtain ⟨⟨leave, next⟩, outer, s, i, hl, hnew, hs, hid, hi, hchain⟩ := later.keeps_jump hb.built h
  obtain ⟨n, t, htranslates, ht, hbecomes⟩ := exists_translates ha hs hi
  obtain rfl : n = .jump (j.label (leave, next)) := by
    cases hbecomes with
    | node n =>
      cases ht
      rfl
    | _ => cases ht
  obtain ⟨fr, hfr, hrole⟩ := List.exists_of_findSome?_eq_some hchain
  obtain ⟨body, hloop⟩ : ∃ body, Node.loop body leave next ∈ a.body.subnodes := by
    rcases List.mem_cons.mp hfr with rfl | hfr
    · exact hb₂.loop_mem_subnodes ha hs hrole
    · obtain ⟨u, -, outer', hu, rfl, -, -⟩ := hs.around hfr
      exact hb₂.loop_mem_subnodes ha hu hrole
  have hlabel : j.label (leave, next) = leave ∨ j.label (leave, next) = next := by
    cases j with
    | leave => exact .inl rfl
    | next => exact .inr rfl
  obtain ⟨honly, hinnermost⟩ := hb₂.innermost_of_jump ha hloop hlabel
  exact ⟨leave, next, _, hl, rfl, ⟨outer, s, i, hnew, hs, hid, hi, htranslates⟩, body, hloop, honly,
    hinnermost⟩

/-- A jump out of a loop over a list, from a test in a region for a resource, in a handler, in a
group of a switch. The loop is in another one, with a region around it that disposes of the
iterator. -/
theorem jump_innermost_in_handler :
    ∃ (b b₁ b₂ : Builder) (a : Artifact), b.Reachable ∧
      Build.statement 7 (.jump .leave) b = .ok () b₁ ∧ b₁.Later b₂ ∧ b₂.assemble = .ok a ∧
      (b.chain 7).map Frame.id = [7, 6, 5, 3, 2, 1, 0] ∧
      ∃ around hs inner outer body, a.body.Stands around hs (.jump (.internal 5)) ∧
        around = inner ++ .loop body (.internal 5) (.internal 4) :: outer ∧
        ∀ p ∈ inner, p.loopLabels? = none := by
  obtain ⟨b₀, hb₀⟩ : ∃ b, Builder.create ⟨"f", false⟩ [⟨"xs", .list .int⟩] .void = .ok b := ⟨_, rfl⟩
  have hwhile := (Reachable.create hb₀).opening 0 (.whileTest ⟨[], .const (.bool true)⟩)
  have hfor := hwhile.opening 1
    (.forEach "x" .int ⟨[⟨"xs", .list .int⟩], .param ⟨"xs", .list .int⟩⟩)
  have hswitch := hfor.opening 2 (.switchOn ⟨[], .const (.int 1)⟩)
  have hcase := hswitch.step (h := .switch ⟨2, 1⟩) (s := .case ⟨[], .const (.int 1)⟩) rfl
  have hgroup := hcase.step (h := .case ⟨2, 1⟩ 0) (s := .caseBody) rfl
  have htry := hgroup.opening 3 .guarded
  have hcatch := htry.step (h := .guarded ⟨3, 0⟩ 4) (s := .handler .str none) rfl
  have husing := hcatch.opening 5 (.using "r" .int ⟨[], .const (.int 1)⟩)
  have hif := husing.opening 6 (.ifTest ⟨[], .const (.bool true)⟩)
  cases hb₀
  obtain ⟨b, hb, hchain, hloop, hok⟩ : ∃ b : Builder, b.Reachable ∧
      (b.chain 7).map Frame.id = [7, 6, 5, 3, 2, 1, 0] ∧
      (b.chain 7).loopLabels? = some (.internal 5, .internal 4) ∧
      ((Build.statement 0 (.label "end")).after
        ((Build.statement 7 (.jump .leave)).after b)).assemble.toOption.isSome = true :=
    ⟨_, hif, by decide +kernel, by decide +kernel, by decide +kernel⟩
  obtain ⟨haccepted, hjump⟩ := hb.jump_innermost 7 .leave
  obtain ⟨fr, hfr, hrole⟩ := List.exists_of_findSome?_eq_some hloop
  obtain ⟨b₁, h⟩ := haccepted.mpr ⟨fr, hfr, _, _, Frame.loopLabels?_eq_some.mp hrole⟩
  have later : b₁.Later ((Build.statement 0 (.label "end")).after b₁) :=
    .statement .refl 0 (.label "end")
  obtain ⟨a, ha⟩ : ∃ a, ((Build.statement 0 (.label "end")).after b₁).assemble = .ok a := by
    rw [show (Build.statement 7 (.jump .leave)).after b = b₁ by rw [Build.after, h]] at hok
    cases ha : ((Build.statement 0 (.label "end")).after b₁).assemble with
    | ok a => exact ⟨a, rfl⟩
    | error e =>
      rw [ha] at hok
      cases hok
  obtain ⟨leave, next, l, hlabels, rfl, ⟨-, -, -, -, -, -, -, -, -, -, hmem⟩, body, -, -, hall⟩ :=
    hjump b₁ _ a h later ha
  cases hloop.symm.trans hlabels
  obtain ⟨around, hs, hstands⟩ := Node.exists_stands hmem
  obtain ⟨inner, outer, haround, hinner⟩ := hall around hs hstands
  exact ⟨b, b₁, _, a, hb, h, later, ha, hchain, around, hs, inner, outer, body, hstands, haround,
    hinner⟩

end Builder

end StructuredFlow
