import StructuredFlow.Proofs.InnermostLoop
import StructuredFlow.Proofs.LoopMeaning
import StructuredFlow.Proofs.Sites

/-
  The law of loops with a test. A loop that was opened, with its test first or its body first, is
  still there in every later builder, with its labels and its body scope (`Builder.Edits.at?_loop`),
  and the statements of a scope stand in one block of the program (`Builder.exists_close`). So the
  node that it becomes means what such a loop is meant to (`Builder.Reachable.loop_law`).
-/

namespace StructuredFlow

variable {ω : Type}

open Outcome

/-! ## Loops that stay -/

namespace Builder

variable {F : Fragment → Prop} {b b' : Builder} {site : Site}

/-- A loop does not grow. -/
theorem Edit.at?_loop {l : Loop} {c : Scope} (h : b.Edit F b') (hb : b.Built F)
    (hat : b.at? site = some (.loop l c)) :
    ∃ c', b'.at? site = some (.loop l c') ∧ c'.frame.id = c.frame.id := by
  obtain ⟨stmt, hat', ⟨g, hg, rfl⟩ | ⟨_, _, -, grows⟩⟩ := h.at?_becomes hb hat
  · exact ⟨g c, hat', hg c⟩
  · cases grows

/-- A loop stays at its site, with its test and its labels, and with its body scope. -/
theorem Edits.at?_loop {l : Loop} {c : Scope} (h : b.Edits F b') (hb : b.Built F)
    (hat : b.at? site = some (.loop l c)) :
    ∃ c', b'.at? site = some (.loop l c') ∧ c'.frame.id = c.frame.id := by
  induction h with
  | refl => exact ⟨c, hat, rfl⟩
  | edit edits edit ih =>
    obtain ⟨c', hat', hid⟩ := ih
    obtain ⟨c'', hat'', hid'⟩ := edit.at?_loop (hb.edits edits) hat'
    exact ⟨c'', hat'', hid'.trans hid⟩

/-- A node stays at its site. -/
theorem Edits.at?_node {n : Node} (h : b.Edits F b') (hb : b.Built F)
    (hat : b.at? site = some (.node n)) : b'.at? site = some (.node n) := by
  obtain ⟨stmt, hat', hkind⟩ := h.at?_kept hb hat
  cases stmt with
  | node n' =>
    cases hkind
    exact hat'
  | _ => cases hkind

end Builder

/-! ## Statements of one block -/

section Blocks

variable {label? : String → Option Label} {close : Block → Node} {B : Block}

/-- The bodies of a switch are closed, the default's with the label of the empty groups in front if
there is one. -/
theorem Node.close_mem_ofSwitch (close : Block → Node) (value : Expr)
    {groups : List (Arm Block)} {default : Option (Label × Block)}
    (hB : (∃ g ∈ groups, g.body = B ∧ B.isEmpty = false) ∨ ∃ d ∈ default, d.2 = B) :
    ∃ front, close ⟨B.locals, front ++ B.nodes⟩ ∈
      (ofSwitch close value groups default).children := by
  rcases hB with ⟨g, hg, rfl, hnonempty⟩ | ⟨⟨fall, body⟩, hd, rfl⟩
  · have harm : ∀ otherwise,
        close g.body ∈ (groups.map (ofSwitch.arm close otherwise)).map Arm.body := by
      intro otherwise
      rw [List.map_map]
      refine List.mem_map.mpr ⟨g, hg, ?_⟩
      simp [ofSwitch.arm, hnonempty]
    refine ⟨[], ?_⟩
    cases default with
    | none => exact List.mem_append_left _ (harm nop)
    | some d => exact List.mem_append_left _ (harm (jump d.1))
  · obtain rfl := Option.mem_def.mp hd
    by_cases hany : groups.any (·.body.isEmpty) = true
    · refine ⟨[mark fall], List.mem_append_right _ (Option.mem_toList.mpr ?_)⟩
      rw [if_pos hany]
      rfl
    · refine ⟨[], List.mem_append_right _ (Option.mem_toList.mpr ?_)⟩
      rw [if_neg hany]
      rfl

/-- The blocks of a statement that are not empty are closed in what it becomes. -/
theorem Stmt.Becomes.close_mem_subnodes {t : Stmt Block} {n : Node} (h : t.Becomes label? close n)
    (hB : B ∈ t.scopes) (hnonempty : B.isEmpty = false) :
    ∃ front, close ⟨B.locals, front ++ B.nodes⟩ ∈ n.subnodes := by
  cases h with
  | node | goto => cases hB
  | conditional links otherwise =>
    refine ⟨[], Node.mem_subnodes_ofLinks ?_⟩
    rcases List.mem_append.mp hB with hB | hB
    · obtain ⟨link, hlink, rfl⟩ := List.mem_map.mp hB
      exact .inl ⟨_, List.mem_map_of_mem hlink, Node.self_mem_subnodes _⟩
    · obtain rfl := Option.mem_toList.mp hB
      exact .inr (Node.self_mem_subnodes _)
  | loop l body =>
    obtain rfl := List.mem_singleton.mp hB
    exact ⟨[], Node.mem_subnodes_ofLoop (Node.self_mem_subnodes _)⟩
  | iteration iterator collection l body =>
    obtain rfl := List.mem_singleton.mp hB
    exact ⟨[], Node.mem_subnodes_ofIteration (Node.mem_subnodes_ofLoop (Node.self_mem_subnodes _))⟩
  | soleDefault value fall body =>
    obtain rfl := List.mem_singleton.mp hB
    exact ⟨[], Node.self_mem_subnodes _⟩
  | @switch value groups default nonempty =>
    have hparts : (∃ g ∈ groups.map fun g => (⟨g.values, g.body.getD .empty⟩ : Arm Block),
        g.body = B ∧ B.isEmpty = false) ∨ ∃ d ∈ default, d.2 = B := by
      rcases List.mem_append.mp hB with hB | hB
      · obtain ⟨g, hg, hbody⟩ := List.mem_filterMap.mp hB
        exact .inl ⟨_, List.mem_map_of_mem hg, by rw [hbody]; rfl, hnonempty⟩
      · exact .inr (Option.map_eq_some_iff.mp (Option.mem_toList.mp hB))
    obtain ⟨front, hmem⟩ := Node.close_mem_ofSwitch close value hparts
    exact ⟨front, Node.mem_subnodes_of_mem_children hmem (Node.self_mem_subnodes _)⟩
  | @attempt body handlers cleanup guarded =>
    refine ⟨[], Node.mem_subnodes_of_mem_children (c := close B) ?_ (Node.self_mem_subnodes _)⟩
    rcases List.mem_cons.mp hB with rfl | hB
    · exact List.mem_cons_self
    refine List.mem_cons_of_mem _ ?_
    rcases List.mem_append.mp hB with hB | hB
    · obtain ⟨h, hh, rfl⟩ := List.mem_map.mp hB
      exact List.mem_append_left _ (List.mem_map.mpr ⟨_, List.mem_map_of_mem hh, rfl⟩)
    · obtain rfl := Option.mem_toList.mp hB
      exact List.mem_append_right _ (List.mem_singleton_self _)
  | resource s producer body =>
    obtain rfl := List.mem_singleton.mp hB
    exact ⟨[], Node.mem_subnodes_withCleanup (Node.self_mem_subnodes _)⟩

/-- A scope of a tree that is assembled is the outermost one, or what it is assembled to is closed
somewhere in the tree's nodes. -/
theorem Scope.exists_close {root s : Scope} {outer : Chain} {C : Block} (hclose : Closes close)
    (hs : Within root outer s) (h : root.assemble label? close = .ok C) :
    ∃ B, s.assemble label? close = .ok B ∧ (B = C ∨ (B.isEmpty = false →
      ∃ front, ∃ n ∈ C.nodes, close ⟨B.locals, front ++ B.nodes⟩ ∈ n.subnodes)) := by
  induction root using induct generalizing outer C with
  | step root ih =>
    rcases hs.cases_root with ⟨-, rfl⟩ | ⟨c, hc, inner, -, hin⟩
    · exact ⟨C, h, .inl rfl⟩
    · obtain ⟨-, hall⟩ := assemble_ok h
      obtain ⟨stmt, hstmt, hcs⟩ := mem_children.mp hc
      obtain ⟨n, hn, t, ht, hbecomes⟩ := exists_right_of_forall₂ hall hstmt
      obtain ⟨D, hD, hok⟩ := exists_of_map ht hcs
      obtain ⟨B, hB, hclosed⟩ := ih c hc hin hok
      refine ⟨B, hB, .inr fun hnonempty => ?_⟩
      rcases hclosed with rfl | hclosed
      · obtain ⟨front, hmem⟩ := hbecomes.close_mem_subnodes hD hnonempty
        exact ⟨front, n, hn, hmem⟩
      · obtain ⟨front, k, hk, hmem⟩ := hclosed hnonempty
        exact ⟨front, n, hn, Node.mem_subnodes_trans (hbecomes.mem_subnodes hclose hD hk) hmem⟩

end Blocks

namespace Builder

variable {b b₀ b₁ : Builder} {a : Artifact} {outer : Chain} {s : Scope}

/-- Two statements of a scope that follow each other do so in a block of the program. -/
theorem exists_block (ha : b.assemble = .ok a) (hs : b.top.Within outer s) {B : Block}
    (hB : s.assemble b.label? Block.collapse = .ok B) {before rest : List Node} {n n' : Node}
    (hnodes : B.nodes = before ++ n :: n' :: rest) :
    ∃ locals before', .block locals (before' ++ n :: n' :: rest) ∈ a.body.subnodes := by
  obtain ⟨-, -, C, hC, hbody⟩ := assemble_ok ha
  obtain ⟨B', hB', hclosed⟩ := Scope.exists_close Block.closes_collapse hs hC
  obtain rfl : B = B' := Except.ok.inj (hB.symm.trans hB')
  have hnonempty : B.isEmpty = false := by
    rw [Block.isEmpty, hnodes]
    simp
  have hcollapse : ∀ front : List Node, (⟨B.locals, front ++ B.nodes⟩ : Block).collapse =
      .block B.locals ((front ++ before) ++ n :: n' :: rest) := by
    intro front
    rw [hnodes, ← List.append_assoc]
    cases front ++ before with
    | nil => cases B.locals <;> rfl
    | cons n₁ ns => cases B.locals <;> cases ns <;> rfl
  have hclosed : ∃ front, (⟨B.locals, front ++ B.nodes⟩ : Block).collapse ∈ a.body.subnodes := by
    rw [hbody]
    rcases hclosed with rfl | hclosed
    · exact ⟨[], Node.mem_subnodes_of_mem_children List.mem_cons_self (Node.self_mem_subnodes _)⟩
    · obtain ⟨front, n, hn, hmem⟩ := hclosed hnonempty
      refine ⟨front, Node.mem_subnodes_of_mem_children List.mem_cons_self ?_⟩
      exact Node.mem_subnodes_trans (Block.closes_collapse.nodes C n hn) hmem
  obtain ⟨front, hmem⟩ := hclosed
  rw [hcollapse] at hmem
  exact ⟨B.locals, _, hmem⟩

end Builder

/-! ## Opened loops -/

namespace Build

open Builder

variable {F : Fragment → Prop} {b b' : Builder} {id r : ScopeId} {test : Fragment}

/-- A loop is put at the end of its scope, with the test that the fragment resolves to there. -/
theorem openWhile_at? (hb : b.Built F) (hF : F test) (h : openWhile id test b = .ok r b') :
    ∃ v i, condition id test b = .ok v b ∧ r = b.newBody.frame.id ∧ b'.Built F ∧
      b'.at? ⟨id, i⟩ = some (.loop (b.newLoop v) b.newBody) := by
  have hb' : b'.Built F := hb.edits ((openWhile_keeps id hF).done hb h)
  obtain ⟨v, hv, h⟩ := (condition_reads id test).andThen_ok h
  obtain ⟨s, hs⟩ := condition_find? hv
  simp only [andThen_ok, makeLoop_ok, push_ok, pure_ok] at h
  obtain ⟨_, _, ⟨rfl, rfl⟩, _, _, rfl, rfl, rfl⟩ := h
  have hat := at?_addStmts [.loop (b.newLoop v) b.newBody] hb.numbered hb'.numbered hs rfl 0
  exact ⟨v, _, hv, rfl, hb', hat.2⟩

/-- A loop that is entered behind its test is put at the end of its scope, behind the jump to the
first statement of its body. -/
theorem openDoWhile_at? (hb : b.Built F) (hF : F test) (h : openDoWhile id test b = .ok r b') :
    ∃ v i, condition id test b = .ok v b ∧ r = b.newBody.frame.id ∧ b'.Built F ∧
      b'.at? ⟨id, i⟩ = some (.node (.goto b.newEntry none)) ∧
      b'.at? ⟨id, i + 1⟩ =
        some (.loop (b.newLoop v) (b.newBody.push (.node (.label b.newEntry none)))) ∧
      b'.at? ⟨r, 0⟩ = some (.node (.label b.newEntry none)) := by
  have hb' : b'.Built F := hb.edits ((openDoWhile_keeps id hF).done hb h)
  obtain ⟨v, hv, h⟩ := (condition_reads id test).andThen_ok h
  obtain ⟨s, hs⟩ := condition_find? hv
  simp only [andThen_ok, makeLoop_ok, pushNode_ok, push_ok, pure_ok] at h
  obtain ⟨_, _, ⟨rfl, rfl⟩, _, _, rfl, _, _, rfl, rfl, rfl⟩ := h
  rw [Scope.update_push_node, ← addStmts_pair] at hb' ⊢
  have hat := at?_addStmts [.node (.goto b.newEntry none),
    .loop (b.newLoop v) (b.newBody.push (.node (.label b.newEntry none)))] hb.numbered hb'.numbered
    hs rfl
  have hloop := (hat 1).2
  refine ⟨v, _, hv, rfl, hb', (hat 0).2, hloop, ?_⟩
  obtain ⟨outer, t, ht, -, hstmt⟩ := exists_of_at? hloop
  have hbody := ht.inside (Scope.mem_children.mpr
    ⟨_, List.mem_of_getElem? hstmt, List.mem_singleton_self _⟩)
  exact at?_of_within hb'.numbered.distinct hbody 0

end Build

/-! ## Loops of the program -/

namespace Builder

variable {F : Fragment → Prop} {b b₀ b₁ : Builder} {a : Artifact} {outer : Chain} {s c : Scope}
  {i : Nat} {l : Loop}

/-- The loop with the given body scope stands at an index of the scope; the program has it, with the
body that its scope is assembled to, and its labels are its own. -/
structure HasLoop (b : Builder) (a : Artifact) (s : Scope) (i : Nat) (id : ScopeId) (l : Loop)
    (body : Node) : Prop where
  stands : ∃ c B, s.stmts[i]? = some (.loop l c) ∧ c.frame.id = id ∧
    c.frame.loopLabels? = some (l.leave, l.next) ∧
    c.assemble b.label? Block.collapse = .ok B ∧ body = B.collapse
  translates : b.Translates a s i (.ofLoop l body)
  separate : l.Separate body

/-- A loop of the scopes is a loop of the program. -/
theorem Built.hasLoop (hb : b.Built F) (ha : b.assemble = .ok a) (hs : b.top.Within outer s)
    (hi : s.stmts[i]? = some (.loop l c)) :
    ∃ B, c.assemble b.label? Block.collapse = .ok B ∧ b.HasLoop a s i c.frame.id l B.collapse := by
  obtain ⟨n, t, htranslates, ht, hbecomes⟩ := exists_translates ha hs hi
  cases hbecomes with
  | loop l' B =>
    simp only [Stmt.map, Stmt.loop.injEq] at ht
    obtain ⟨rfl, hB⟩ := ht
    have hmem := htranslates
    obtain ⟨-, -, -, hmem⟩ := hmem
    have hplaces : (Node.ofLoop l B.collapse).places = l.leave :: l.next :: B.collapse.places := by
      rw [Node.places_ofLoop]
    have hnodup := hb.placed.subnode_nodup Block.closes_collapse ha hmem
    rw [hplaces, List.map_cons, List.map_cons, List.nodup_cons, List.nodup_cons] at hnodup
    have houtside : ∀ target : Label, target.id ∉ B.collapse.places.map Label.id →
        B.collapse.defines target.id = false := by
      intro target hnot
      refine Bool.eq_false_iff.mpr fun hinside => hnot ?_
      obtain ⟨target', htarget', hid⟩ := Node.exists_mem_places hinside
      exact hid ▸ List.mem_map_of_mem htarget'
    have hroles := ((hb.jumpsInmost.of_within hs).stmt (List.mem_of_getElem? hi)).roles c
      (List.mem_singleton_self c)
    refine ⟨B, hB, ⟨c, B, hi, rfl, hroles, hB, rfl⟩, htranslates, ?_, ?_, ?_⟩
    · exact fun heq => hnodup.1 (heq ▸ List.mem_cons_self)
    · exact houtside _ fun hmem => hnodup.1 (List.mem_cons_of_mem _ hmem)
    · exact houtside _ hnodup.2.1
  | _ => cases ht

/-- The statement of a scope that is a node is in the program as it is. -/
theorem node_translates (ha : b.assemble = .ok a) (hs : b.top.Within outer s) {n : Node}
    (hi : s.stmts[i]? = some (.node n)) : b.Translates a s i n := by
  obtain ⟨m, t, htranslates, ht, hbecomes⟩ := exists_translates ha hs hi
  cases hbecomes with
  | node m =>
    cases ht
    exact htranslates
  | _ => cases ht

/-- A body whose first statement marks a label begins with the mark. -/
theorem begins_of_assemble {n : Node} {B : Block} (hfirst : c.stmts[0]? = some (.node n))
    (hB : c.assemble b.label? Block.collapse = .ok B) : Node.Begins n B.collapse := by
  obtain ⟨frame, stmts⟩ := c
  obtain ⟨locals, nodes⟩ := B
  obtain ⟨-, hall⟩ := Scope.assemble_ok hB
  cases hall with
  | nil => cases hfirst
  | cons hhead _ =>
    cases hfirst
    obtain ⟨t, ht, hbecomes⟩ := hhead
    cases hbecomes with
    | node m =>
      cases ht
      exact Node.begins_cons _ ⟨locals, _⟩
    | _ => cases ht

/-- The statements of a loop that is entered behind its test follow each other in a block of the
program, and no label leads into two nodes of the block. -/
theorem Built.enteredLoop_block (hb : b.Built F) (ha : b.assemble = .ok a)
    (hs : b.top.Within outer s) {entry : Label} {body : Node}
    (hjump : b.Translates a s i (.jump entry)) (hloop : b.Translates a s (i + 1) (.ofLoop l body)) :
    ∃ locals before rest,
      .block locals (before ++ .jump entry :: .ofLoop l body :: rest) ∈ a.body.subnodes ∧
      Node.Apart (before ++ .jump entry :: .ofLoop l body :: rest) := by
  obtain ⟨C, hC, hi, -⟩ := hjump
  obtain ⟨C', hC', hi', -⟩ := hloop
  obtain rfl := Except.ok.inj (hC.symm.trans hC')
  obtain ⟨hlt, hnode⟩ := List.getElem?_eq_some_iff.mp hi
  obtain ⟨hlt', hnode'⟩ := List.getElem?_eq_some_iff.mp hi'
  have hnodes :
      C.nodes = C.nodes.take i ++ .jump entry :: .ofLoop l body :: C.nodes.drop (i + 2) := by
    rw [← hnode, ← hnode', ← List.drop_eq_getElem_cons hlt', ← List.drop_eq_getElem_cons hlt,
      List.take_append_drop]
  obtain ⟨locals, before, hblock⟩ := exists_block ha hs hC hnodes
  have hnodup := hb.placed.subnode_nodup Block.closes_collapse ha hblock
  rw [Node.places_eq] at hnodup
  exact ⟨locals, before, _, hblock, Node.apart_of_nodup hnodup⟩

/-- The law of loops with a test. Where a loop was opened at any time, the program has it, and with
enough fuel and steps it comes to what it means: from its test on if it was opened with the test
first, and from its body on, in place of the two statements that it was put in as, if it was opened
with the body first. A place in the body leads into it without a test. -/
theorem Reachable.loop_law (hb : b₀.Reachable) (hlater : b₁.Later b) (ha : b.assemble = .ok a)
    {id bodyId : ScopeId} {test : Fragment} :
    (Build.openWhile id test b₀ = .ok bodyId b₁ →
      ∃ outer s i l body, b.top.Within outer s ∧ s.frame.id = id ∧
        b.HasLoop a s i bodyId l body ∧ Build.condition id test b₀ = .ok l.condition b₀ ∧
        ∀ (m : Machine ω) r,
          ((Node.ofLoop l body).Yields none m r ↔ l.Means body .test m r) ∧
          ∀ d, body.defines d.target = true →
            ((Node.ofLoop l body).Yields (some d) m r ↔ l.Means body (.body (some d)) m r)) ∧
    (Build.openDoWhile id test b₀ = .ok bodyId b₁ →
      ∃ outer s i l body entry locals before rest, b.top.Within outer s ∧ s.frame.id = id ∧
        b.HasLoop a s (i + 1) bodyId l body ∧ b.Translates a s i (.jump entry) ∧
        Build.condition id test b₀ = .ok l.condition b₀ ∧
        .block locals (before ++ .jump entry :: .ofLoop l body :: rest) ∈ a.body.subnodes ∧
        ∀ (m : Machine ω) r,
          (Node.RowYields (before ++ .jump entry :: .ofLoop l body :: rest)
              (.jump entry :: .ofLoop l body :: rest) none m r ↔
            Node.RowYields (before ++ .jump entry :: .ofLoop l body :: rest)
              (.enteredLoop entry l body :: rest) none m r) ∧
          ((Node.enteredLoop entry l body).Yields none m r ↔ l.Means body (.body none) m r) ∧
          ∀ d, body.defines d.target = true →
            ((Node.ofLoop l body).Yields (some d) m r ↔ l.Means body (.body (some d)) m r)) := by
  constructor
  · intro hopen
    obtain ⟨v, i, hcondition, rfl, hb₁, hat₁⟩ :=
      Build.openWhile_at? hb.built (F := fun _ => True) trivial hopen
    obtain ⟨c, hat, hid⟩ := (hlater.edits hb₁).at?_loop hb₁ hat₁
    have hbuilt := hb₁.edits (hlater.edits hb₁)
    obtain ⟨outer, s, hs, rfl, hi⟩ := exists_of_at? hat
    obtain ⟨B, -, hloop⟩ := hbuilt.hasLoop ha hs hi
    exact ⟨outer, s, i, _, _, hs, rfl, hid ▸ hloop, hcondition, fun m r =>
      ⟨Node.ofLoop_yields_iff hloop.separate, fun d => Node.ofLoop_yields_sought hloop.separate⟩⟩
  · intro hopen
    obtain ⟨v, i, hcondition, rfl, hb₁, hjump₁, hloop₁, hmark₁⟩ :=
      Build.openDoWhile_at? hb.built (F := fun _ => True) trivial hopen
    have hedits := hlater.edits hb₁
    have hbuilt := hb₁.edits hedits
    obtain ⟨c, hat, hid⟩ := hedits.at?_loop hb₁ hloop₁
    obtain ⟨outer, s, hs, rfl, hi⟩ := exists_of_at? hat
    have hjump : s.stmts[i]? = some (.node (.goto b₀.newEntry none)) :=
      (at?_of_within hbuilt.numbered.distinct hs i).symm.trans (hedits.at?_node hb₁ hjump₁)
    obtain ⟨B, hB, hloop⟩ := hbuilt.hasLoop ha hs hi
    -- The first statement of the body is still the mark that the jump leads to.
    have hc := hs.inside (Scope.mem_children.mpr
      ⟨_, List.mem_of_getElem? hi, List.mem_singleton_self c⟩)
    have hmark : c.stmts[0]? = some (.node (.mark b₀.newEntry)) := by
      have hfirst := at?_of_within hbuilt.numbered.distinct hc 0
      rw [hid] at hfirst
      exact hfirst.symm.trans (hedits.at?_node hb₁ hmark₁)
    have hbegins := begins_of_assemble hmark hB
    have hjumps : b.Translates a s i (.jump b₀.newEntry) := node_translates ha hs hjump
    obtain ⟨locals, before, rest, hblock, hapart⟩ :=
      hbuilt.enteredLoop_block ha hs hjumps hloop.translates
    exact ⟨outer, s, i, _, _, _, locals, before, rest, hs, rfl, hid ▸ hloop, hjumps, hcondition, hblock,
      fun m r => ⟨Node.rowYields_enteredLoop hapart rfl hbegins,
        Node.enteredLoop_yields_iff hloop.separate hbegins,
        fun d => Node.ofLoop_yields_sought hloop.separate⟩⟩

/-- A loop whose test is false from the start executes its body once if it is entered behind the
test. -/
theorem loop_law_with_body_first :
    let x : Symbol := ⟨0, "x", .bool⟩
    let y : Symbol := ⟨1, "y", .bool⟩
    let l : Loop := ⟨.var x, .internal 2, .internal 1⟩
    let body : Node := .block [] [.mark (.internal 3), .assign y (.const (.bool true))]
    ∃ (b₀ b₁ b : Builder) (a : Artifact) (m m' : Machine Unit),
      b₀.Reachable ∧ Build.openDoWhile 0 ⟨[], .var x⟩ b₀ = .ok 1 b₁ ∧ b₁.Later b ∧
      b.assemble = .ok a ∧ .block [] [.jump (.internal 3), .ofLoop l body] ∈ a.body.subnodes ∧
      m.env.get? 0 = some (.bool false) ∧ m'.env.get? 1 = some (.bool true) ∧
      (Node.enteredLoop (.internal 3) l body).Yields none m (.ok (.normal .void) m') := by
  intro x y l body
  let top (stmts inner : List (Stmt Scope)) : Scope := ⟨⟨0, .plain, [], [x, y]⟩,
    stmts ++ [.loop l ⟨⟨1, .loopBody l.leave l.next, [], []⟩,
      .node (.mark (.internal 3)) :: inner⟩]⟩
  let jump : Stmt Scope := .node (.jump (.internal 3))
  let b₀ : Builder :=
    ⟨⟨"f", false⟩, [x, y], .internal 0, [], ⟨⟨0, .plain, [], [x, y]⟩, []⟩, 1, 2, 1⟩
  let b₁ : Builder := ⟨⟨"f", false⟩, [x, y], .internal 0, [], top [jump] [], 2, 2, 4⟩
  let b : Builder := ⟨⟨"f", false⟩, [x, y], .internal 0, [],
    top [jump] [.node (.assign y (.const (.bool true)))], 2, 2, 4⟩
  have hcreate : Builder.create ⟨"f", false⟩ [⟨"x", .bool⟩, ⟨"y", .bool⟩] .void = .ok b₀ := rfl
  have hreach : b₀.Reachable := .create hcreate
  have hopen : Build.openDoWhile 0 ⟨[], .var x⟩ b₀ = .ok 1 b₁ := rfl
  have hlater : b₁.Later b := Later.refl.statement 1 (.assign "y" .bool ⟨[], .const (.bool true)⟩)
  let a : Artifact := ⟨"f", [x, y], .internal 0,
    .block [] [.block [] [.jump (.internal 3), .ofLoop l body], .label (.internal 0) none]⟩
  have ha : b.assemble = .ok a := rfl
  obtain ⟨outer, s, i, l', body', entry, locals, before, rest, hs, hid, hloop, hjump, -, -, hlaw⟩ :=
    (hreach.loop_law (ω := Unit) hlater ha).2 hopen
  -- The statement that the law is about is the one that was put in.
  have hdistinct : b.top.Distinct := (by decide : [0, 1].Nodup)
  obtain ⟨-, rfl⟩ := hs.unique hdistinct .here hid
  obtain ⟨c, B, hi, -, -, hB, rfl⟩ := hloop.stands
  obtain rfl : i = 0 := by
    cases i with
    | zero => rfl
    | succ i => cases hi
  cases hi
  cases hB
  obtain ⟨C, hC, hentry, -⟩ := hjump
  cases hC
  cases hentry
  let m : Machine Unit := (Machine.new Host.empty () 9).assign x (.bool false)
  let m' : Machine Unit := m.assign y (.bool true)
  have hbody : body.Yields none m (.ok (.normal .void) m') :=
    Node.yields_iff_comes.mpr ⟨_, .call .done (.call .done .done)⟩
  have htest : l.condition.eval m' = .ok (.bool false) m' := rfl
  refine ⟨b₀, b₁, b, a, m, m', hreach, hopen, hlater, ha, ?_, rfl, rfl, ?_⟩
  · exact Node.mem_subnodes_of_mem_children List.mem_cons_self (Node.self_mem_subnodes _)
  · exact (hlaw m _).2.1.mpr (.completes hbody (.fails htest))

end Builder

end StructuredFlow
