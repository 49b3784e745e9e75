import Mathlib.Data.List.Flatten
import StructuredFlow.Proofs.AssemblyFits
import StructuredFlow.Proofs.NodeTree
import StructuredFlow.Proofs.Places

/-
  The places of labels in what a program is assembled to. Assembly keeps the places that the
  statements have made, apart from labels that nothing jumps to (`Scope.places_of_assemble`); so no
  two labels with a place in the body share a number (`Builder.Placed.places_nodup`). And it
  keeps the statements: what a scope is assembled to stands in the body
  (`Scope.exists_of_assemble`).
-/

namespace StructuredFlow

/-- The labels that have a place in a block. -/
def Block.places (B : Block) : List Label :=
  B.nodes.flatMap Node.places

/-- The function closes blocks in such a way that nothing in them is lost. -/
structure Closes (close : Block → Node) : Prop where
  places : ∀ B, (close B).places = B.places
  nodes : ∀ B, ∀ n ∈ B.nodes, n ∈ (close B).subnodes

theorem Closes.flatMap_places {α : Type} {close : Block → Node} (hclose : Closes close)
    (xs : List α) (f : α → Block) :
    (xs.flatMap fun x => (close (f x)).places) = xs.flatMap fun x => (f x).places :=
  List.flatMap_congr fun x _ => hclose.places (f x)

namespace Block

theorem places_of_isEmpty {B : Block} (h : B.isEmpty = true) : B.places = [] := by
  obtain ⟨locals, nodes⟩ := B
  rw [isEmpty, Bool.and_eq_true, List.isEmpty_iff] at h
  obtain rfl : nodes = [] := h.1
  rfl

theorem closes_toNode : Closes toNode where
  places _ := Node.places_eq _
  nodes _ n hn := Node.mem_subnodes_of_mem_children hn n.self_mem_subnodes

theorem closes_collapse : Closes collapse where
  places B := by
    obtain ⟨locals, nodes⟩ := B
    unfold collapse
    split
    next h =>
      cases h
      rfl
    next n h =>
      cases h
      exact (List.append_nil _).symm
    next h =>
      cases h
      exact Node.places_eq _
  nodes B n hn := by
    obtain ⟨locals, nodes⟩ := B
    unfold collapse
    split
    next h =>
      cases h
      exact absurd hn List.not_mem_nil
    next m h =>
      cases h
      obtain rfl := List.mem_singleton.mp hn
      exact n.self_mem_subnodes
    next h =>
      cases h
      exact Node.mem_subnodes_of_mem_children hn n.self_mem_subnodes

end Block

/-! ## Parts of assembled nodes -/

namespace Node

variable {n : Node}

theorem places_ofLinks (links : List (Expr × Node)) (otherwise : Node) :
    (ofLinks links otherwise).places = links.flatMap (·.2.places) ++ otherwise.places := by
  induction links with
  | nil => rfl
  | cons link links ih =>
    show (Node.branch link.1 link.2 (ofLinks links otherwise)).places = _
    rw [places_eq, List.flatMap_cons, List.append_assoc, ← ih]
    simp [place, children]

theorem places_ofLoop (l : Loop) (body : Node) :
    (ofLoop l body).places = l.leave :: l.next :: body.places := by
  rw [ofLoop, places_eq]
  simp [place, children, places_eq (.branch _ _ _), places_eq (.goto _ _), jump]

theorem places_disposal (s : Symbol) : (disposal s).places = [] := by
  unfold disposal
  dsimp only
  split <;> rfl

theorem places_withCleanup (s : Symbol) (producer : Expr) (body : Node) :
    (withCleanup s producer body).places = body.places := by
  rw [withCleanup, places_eq]
  simp [place, children, places_eq (.assign _ _), places_eq (.attempt _ _ _), places_disposal]

theorem places_ofIteration (iterator : Symbol) (collection : Expr) (walk : Node) :
    (ofIteration iterator collection walk).places = walk.places := by
  unfold ofIteration
  dsimp only
  split
  · exact places_withCleanup _ _ _
  · rw [places_eq]
    simp [place, children, places_eq (.assign _ _)]

theorem places_switch (value : Expr) (arms : List (Arm Node)) (default : Option Node) :
    (switch value arms default).places =
      arms.flatMap (·.body.places) ++ default.toList.flatMap places := by
  rw [places_eq, children, List.flatMap_append, List.flatMap_map]
  rfl

theorem places_attempt (body : Node) (handlers : List (Handler Node)) (cleanup : Option Node) :
    (attempt body handlers cleanup).places =
      body.places ++ (handlers.flatMap (·.body.places) ++ cleanup.toList.flatMap places) := by
  rw [places_eq, children, List.flatMap_cons, List.flatMap_append, List.flatMap_map]
  rfl

theorem places_arm {close : Block → Node} (hclose : Closes close) {otherwise : Node}
    (hotherwise : otherwise.places = []) (g : Arm Block) :
    (ofSwitch.arm close otherwise g).body.places = g.body.places := by
  unfold ofSwitch.arm
  dsimp only
  split
  next hempty => rw [hotherwise, Block.places_of_isEmpty hempty]
  next => exact hclose.places g.body

/-- A switch has the places of its groups and of its default and, if an empty group falls through
to the default, that of the label there. -/
theorem places_ofSwitch {close : Block → Node} (hclose : Closes close) (value : Expr)
    (groups : List (Arm Block)) (default : Option (Label × Block)) :
    (ofSwitch close value groups default).places.Subperm
      ((default.map Prod.fst).toList ++
        (groups.flatMap (·.body.places) ++ default.toList.flatMap (·.2.places))) := by
  have harms : ∀ otherwise : Node, otherwise.places = [] →
      (groups.map (ofSwitch.arm close otherwise)).flatMap (·.body.places) =
        groups.flatMap (·.body.places) := by
    intro otherwise hotherwise
    rw [List.flatMap_map]
    exact List.flatMap_congr fun g _ => places_arm hclose hotherwise g
  cases default with
  | none =>
    refine (List.Perm.of_eq ?_).subperm
    rw [ofSwitch, places_switch, harms nop rfl]
    rfl
  | some d =>
    obtain ⟨fall, body⟩ := d
    rw [ofSwitch, places_switch, harms (jump fall) rfl, Option.toList_some, Option.toList_some,
      List.flatMap_singleton, List.flatMap_singleton, hclose.places]
    split
    next =>
      show (groups.flatMap (·.body.places) ++ fall :: body.places).Subperm _
      exact List.perm_middle.subperm
    next => exact (List.suffix_append _ _).sublist.subperm

end Node

/-! ## Statements and scopes -/

namespace Stmt

variable {label? : String → Option Label} {close : Block → Node}

/-- A group without a body has no places. -/
theorem places_groups (groups : List (Arm (Option Block))) :
    (groups.map fun g => (⟨g.values, g.body.getD .empty⟩ : Arm Block)).flatMap (·.body.places) =
      (groups.filterMap Arm.body).flatMap Block.places := by
  induction groups with
  | nil => rfl
  | cons g groups ih =>
    rw [List.map_cons, List.flatMap_cons, ih, List.filterMap_cons]
    cases g.body <;> rfl

/-- What a statement becomes has no places but those that it makes itself and those of its
blocks. -/
theorem Becomes.places {t : Stmt Block} {n : Node} (hclose : Closes close)
    (h : t.Becomes label? close n) :
    n.places.Subperm (t.place ++ t.scopes.flatMap Block.places) := by
  cases h with
  | node n => exact (List.Perm.of_eq (List.append_nil _).symm).subperm
  | goto placed => exact List.nil_subperm
  | conditional links otherwise =>
    refine (List.Perm.of_eq ?_).subperm
    rw [Node.places_ofLinks, List.flatMap_map, place, scopes, List.nil_append,
      List.flatMap_append, List.flatMap_map]
    refine congrArg₂ _ (hclose.flatMap_places links Prod.snd) ?_
    cases otherwise with
    | none => rfl
    | some body => exact (hclose.places body).trans (List.append_nil _).symm
  | loop l body =>
    refine (List.Perm.of_eq ?_).subperm
    rw [Node.places_ofLoop, hclose.places]
    exact congrArg _ (congrArg _ (List.append_nil _).symm)
  | iteration iterator collection l body =>
    refine (List.Perm.of_eq ?_).subperm
    rw [Node.places_ofIteration, Node.places_ofLoop, hclose.places]
    exact congrArg _ (congrArg _ (List.append_nil _).symm)
  | soleDefault value fall body =>
    rw [hclose.places]
    rw [scopes, List.filterMap_nil, List.nil_append, Option.map_some, Option.toList_some,
      List.flatMap_singleton]
    exact (List.sublist_append_right _ _).subperm
  | @switch value groups default nonempty =>
    refine (Node.places_ofSwitch hclose _ _ _).trans (List.Perm.of_eq ?_).subperm
    rw [places_groups, scopes, List.flatMap_append]
    cases default <;> rfl
  | @attempt body handlers cleanup guarded =>
    refine (List.Perm.of_eq ?_).subperm
    rw [Node.places_attempt, place, scopes, List.nil_append, List.flatMap_cons,
      List.flatMap_append, List.flatMap_map, List.flatMap_map, hclose.places]
    refine congrArg₂ _ rfl (congrArg₂ _ (hclose.flatMap_places handlers Handler.body) ?_)
    cases cleanup with
    | none => rfl
    | some body => exact congrArg (· ++ []) (hclose.places body)
  | resource s producer body =>
    refine (List.Perm.of_eq ?_).subperm
    rw [Node.places_withCleanup, hclose.places]
    exact (List.append_nil _).symm

end Stmt

section Lists

variable {α β γ : Type} {R : α → β → Prop} {xs : List α} {ys : List β}

/-- What corresponding elements have, one no more than the other, is so for the lists. -/
theorem subperm_flatMap_of_forall₂ {f : α → List γ} {g : β → List γ} (h : List.Forall₂ R xs ys)
    (hR : ∀ x ∈ xs, ∀ y, R x y → (g y).Subperm (f x)) :
    (ys.flatMap g).Subperm (xs.flatMap f) := by
  induction h with
  | nil => exact List.nil_subperm
  | @cons x y xs ys hxy _ ih =>
    rw [List.flatMap_cons, List.flatMap_cons]
    exact (hR x List.mem_cons_self y hxy).append
      (ih fun z hz => hR z (List.mem_cons_of_mem _ hz))

theorem forall₂_of_map_eq {f : α → γ} {g : β → γ} (h : xs.map f = ys.map g) :
    List.Forall₂ (fun x y => f x = g y) xs ys := by
  have hall : List.Forall₂ (· = ·) (xs.map f) (ys.map g) := by
    rw [List.forall₂_eq_eq_eq]
    exact h
  exact List.forall₂_map_right_iff.mp (List.forall₂_map_left_iff.mp hall)

end Lists

namespace Scope

variable {label? : String → Option Label} {close : Block → Node} {s : Scope} {B : Block}

/-- The scopes of a statement that became a node correspond to its blocks. -/
theorem forall₂_of_map {stmt : Stmt Scope} {t : Stmt Block}
    (h : stmt.map (assemble label? close) = t.map .ok) :
    List.Forall₂ (fun (c : Scope) B => c.assemble label? close = .ok B) stmt.scopes t.scopes := by
  refine forall₂_of_map_eq ?_
  rw [← Stmt.scopes_map, ← Stmt.scopes_map, h]

/-- A scope is assembled to a block that has no places but those of the scope. -/
theorem places_of_assemble (hclose : Closes close) (h : s.assemble label? close = .ok B) :
    B.places.Subperm s.places := by
  induction s using induct generalizing B with
  | step s ih =>
    obtain ⟨-, hall⟩ := assemble_ok h
    have hstmts : B.places.Subperm
        (s.stmts.flatMap fun stmt => stmt.place ++ stmt.scopes.flatMap places) := by
      refine subperm_flatMap_of_forall₂ hall ?_
      rintro stmt hstmt n ⟨t, ht, hbecomes⟩
      refine (hbecomes.places hclose).trans ?_
      rw [← Stmt.place_map (assemble label? close) stmt, ht, Stmt.place_map]
      refine (List.Subperm.refl _).append ?_
      refine subperm_flatMap_of_forall₂ (forall₂_of_map ht) fun c hc B hB => ?_
      exact ih c (mem_children.mpr ⟨stmt, hstmt, hc⟩) hB
    rw [places_eq, children, List.flatMap_assoc]
    exact hstmts.trans (List.flatMap_append_perm _ _ _).symm.subperm

end Scope

/-! ## Statements in the body -/

namespace Node

theorem mem_subnodes_ofLinks {links : List (Expr × Node)} {otherwise m : Node}
    (h : (∃ link ∈ links, m ∈ link.2.subnodes) ∨ m ∈ otherwise.subnodes) :
    m ∈ (ofLinks links otherwise).subnodes := by
  induction links with
  | nil => exact h.resolve_left fun ⟨_, hlink, _⟩ => absurd hlink List.not_mem_nil
  | cons link links ih =>
    have hyes : link.2 ∈ (ofLinks (link :: links) otherwise).children := List.mem_cons_self
    have hno : ofLinks links otherwise ∈ (ofLinks (link :: links) otherwise).children :=
      List.mem_cons_of_mem _ (List.mem_singleton_self _)
    rcases h with ⟨link', hlink, hm⟩ | hm
    · rcases List.mem_cons.mp hlink with rfl | hlink
      · exact mem_subnodes_of_mem_children hyes hm
      · exact mem_subnodes_of_mem_children hno (ih (.inl ⟨link', hlink, hm⟩))
    · exact mem_subnodes_of_mem_children hno (ih (.inr hm))

theorem mem_subnodes_ofLoop {l : Loop} {body m : Node} (h : m ∈ body.subnodes) :
    m ∈ (ofLoop l body).subnodes :=
  mem_subnodes_of_mem_children (List.mem_singleton_self _)
    (mem_subnodes_of_mem_children List.mem_cons_self h)

theorem mem_subnodes_withCleanup {s : Symbol} {producer : Expr} {body m : Node}
    (h : m ∈ body.subnodes) : m ∈ (withCleanup s producer body).subnodes :=
  mem_subnodes_of_mem_children (List.mem_cons_of_mem _ (List.mem_singleton_self _))
    (mem_subnodes_of_mem_children List.mem_cons_self h)

theorem mem_subnodes_ofIteration {iterator : Symbol} {collection : Expr} {walk m : Node}
    (h : m ∈ walk.subnodes) : m ∈ (ofIteration iterator collection walk).subnodes := by
  unfold ofIteration
  dsimp only
  split
  · exact mem_subnodes_withCleanup h
  · exact mem_subnodes_of_mem_children (List.mem_cons_of_mem _ (List.mem_singleton_self _)) h

/-- The body of a group that has statements is in the switch, and so is the body of the default. -/
theorem mem_subnodes_ofSwitch {close : Block → Node} (hclose : Closes close) {value : Expr}
    {groups : List (Arm Block)} {default : Option (Label × Block)} {B : Block} {m : Node}
    (hB : (∃ g ∈ groups, g.body = B) ∨ ∃ d ∈ default, d.2 = B) (hm : m ∈ B.nodes) :
    m ∈ (ofSwitch close value groups default).subnodes := by
  rcases hB with ⟨g, hg, rfl⟩ | ⟨d, hd, rfl⟩
  · have harm : ∀ otherwise, (ofSwitch.arm close otherwise g).body = close g.body := by
      intro otherwise
      have hnonempty : g.body.isEmpty = false := by
        obtain ⟨values, locals, nodes⟩ := g
        cases nodes with
        | nil => exact absurd hm List.not_mem_nil
        | cons n nodes => rfl
      rw [ofSwitch.arm, hnonempty]
      rfl
    have hmem : ∀ otherwise,
        close g.body ∈ (groups.map (ofSwitch.arm close otherwise)).map Arm.body :=
      fun otherwise => harm otherwise ▸ List.mem_map_of_mem (List.mem_map_of_mem hg)
    have hm := hclose.nodes g.body m hm
    cases default with
    | none => exact mem_subnodes_of_mem_children (List.mem_append_left _ (hmem _)) hm
    | some d => exact mem_subnodes_of_mem_children (List.mem_append_left _ (hmem _)) hm
  · obtain rfl := Option.mem_def.mp hd
    refine mem_subnodes_of_mem_children (List.mem_append_right _ (List.mem_singleton_self _)) ?_
    refine hclose.nodes _ m ?_
    split
    · exact List.mem_cons_of_mem _ hm
    · exact hm

end Node

/-- The nodes of each block of a statement are in what the statement becomes. -/
theorem Stmt.Becomes.mem_subnodes {label? : String → Option Label} {close : Block → Node}
    (hclose : Closes close) {t : Stmt Block} {n m : Node} (h : t.Becomes label? close n) {B : Block}
    (hB : B ∈ t.scopes) (hm : m ∈ B.nodes) : m ∈ n.subnodes := by
  cases h with
  | node | goto => cases hB
  | conditional links otherwise =>
    refine Node.mem_subnodes_ofLinks ?_
    rcases List.mem_append.mp hB with hB | hB
    · obtain ⟨link, hlink, rfl⟩ := List.mem_map.mp hB
      exact .inl ⟨_, List.mem_map_of_mem hlink, hclose.nodes _ m hm⟩
    · obtain rfl := Option.mem_toList.mp hB
      exact .inr (hclose.nodes _ m hm)
  | loop l body =>
    obtain rfl := List.mem_singleton.mp hB
    exact Node.mem_subnodes_ofLoop (hclose.nodes _ m hm)
  | iteration iterator collection l body =>
    obtain rfl := List.mem_singleton.mp hB
    exact Node.mem_subnodes_ofIteration (Node.mem_subnodes_ofLoop (hclose.nodes _ m hm))
  | soleDefault value fall body =>
    obtain rfl := List.mem_singleton.mp hB
    exact hclose.nodes _ m hm
  | @switch value groups default nonempty =>
    refine Node.mem_subnodes_ofSwitch hclose (B := B) ?_ hm
    rcases List.mem_append.mp hB with hB | hB
    · obtain ⟨g, hg, hbody⟩ := List.mem_filterMap.mp hB
      exact .inl ⟨_, List.mem_map_of_mem hg, by rw [hbody]; rfl⟩
    · obtain ⟨d, hd, rfl⟩ := Option.map_eq_some_iff.mp (Option.mem_toList.mp hB)
      exact .inr ⟨d, hd, rfl⟩
  | @attempt body handlers cleanup guarded =>
    refine Node.mem_subnodes_of_mem_children (c := close B) ?_ (hclose.nodes _ m hm)
    rcases List.mem_cons.mp hB with rfl | hB
    · exact List.mem_cons_self
    refine List.mem_cons_of_mem _ ?_
    rcases List.mem_append.mp hB with hB | hB
    · obtain ⟨h, hh, rfl⟩ := List.mem_map.mp hB
      exact List.mem_append_left _ (List.mem_map.mpr ⟨_, List.mem_map_of_mem hh, rfl⟩)
    · obtain rfl := Option.mem_toList.mp hB
      exact List.mem_append_right _ (List.mem_singleton_self _)
  | resource s producer body =>
    obtain rfl := List.mem_singleton.mp hB
    exact Node.mem_subnodes_withCleanup (hclose.nodes _ m hm)

/-- Every scope of a tree that is assembled is assembled itself, and its nodes are below those of
the tree. -/
theorem Scope.exists_of_assemble {label? : String → Option Label} {close : Block → Node}
    (hclose : Closes close) {root s : Scope} {outer : Chain} {B : Block}
    (hs : Within root outer s) (h : root.assemble label? close = .ok B) :
    ∃ B', s.assemble label? close = .ok B' ∧
      ∀ n ∈ B'.nodes, ∃ m ∈ B.nodes, n ∈ m.subnodes := by
  induction root using induct generalizing outer B with
  | step root ih =>
    rcases hs.cases_root with ⟨-, rfl⟩ | ⟨c, hc, inner, -, hin⟩
    · exact ⟨B, h, fun n hn => ⟨n, hn, n.self_mem_subnodes⟩⟩
    · obtain ⟨-, hall⟩ := assemble_ok h
      obtain ⟨stmt, hstmt, hcs⟩ := mem_children.mp hc
      obtain ⟨m, hm, u, hu, hbecomes⟩ := exists_right_of_forall₂ hall hstmt
      obtain ⟨C, hC, hok⟩ := exists_of_map hu hcs
      obtain ⟨B', hB', hnodes⟩ := ih c hc hin hok
      refine ⟨B', hB', fun n hn => ⟨m, hm, ?_⟩⟩
      obtain ⟨k, hk, hnk⟩ := hnodes n hn
      exact Node.mem_subnodes_trans (hbecomes.mem_subnodes hclose hC hk) hnk

namespace Builder

variable {b : Builder} {a : Artifact} {close : Block → Node}

/-- The places of a program are places of its statements, and that of the return label. -/
theorem places_of_assemble (hclose : Closes close) (ha : b.assembleWith close = .ok a) :
    a.body.places.Subperm (b.returnLabel :: b.top.places) := by
  obtain ⟨-, hreturn, B, hB, hbody⟩ := assembleWith_ok ha
  have hplaces : a.body.places = B.places ++ [b.returnLabel] := by
    rw [hbody, Node.places_eq, ← hreturn, ← hclose.places B]
    rfl
  rw [hplaces]
  refine (List.perm_append_singleton _ _).subperm.trans ?_
  exact (List.subperm_cons _).mpr (Scope.places_of_assemble hclose hB)

/-- No two labels with a place in the body of a program share a number. -/
theorem Placed.places_nodup (hb : b.Placed) (hclose : Closes close)
    (ha : b.assembleWith close = .ok a) : (a.body.places.map Label.id).Nodup := by
  obtain ⟨ls, hperm, hsub⟩ := places_of_assemble hclose ha
  exact (hperm.map Label.id).nodup_iff.mp (hb.ids.sublist (hsub.map Label.id))

theorem Placed.subnode_nodup (hb : b.Placed) (hclose : Closes close)
    (ha : b.assembleWith close = .ok a) {n : Node} (hn : n ∈ a.body.subnodes) :
    (n.places.map Label.id).Nodup :=
  (hb.places_nodup hclose ha).sublist
    (((Node.subnodes_sublist hn).flatMap Node.place).map Label.id)

end Builder

end StructuredFlow
