import StructuredFlow.Proofs.AssembledPlaces
import StructuredFlow.Proofs.Clauses

/-
  What a program tells when it is assembled. Assembly keeps all clauses, each as often as it was
  told, apart from the value of a switch that has a default only, which is not evaluated any more
  (`Scope.clauses_of_assemble`). So whatever holds of the clauses of a builder holds of the nodes of
  its program (`Builder.clauses_of_assemble`).
-/

namespace StructuredFlow

/-- The first list has the clauses of the second one, except for expressions that are not read any
more. -/
def Clause.Keeps (kept all : List Clause) : Prop :=
  ∃ dropped : List Clause, (∀ c ∈ dropped, ∃ e, c = .reads e) ∧ (kept ++ dropped).Perm all

namespace Clause.Keeps

variable {xs ys zs us : List Clause}

theorem of_perm (h : xs.Perm ys) : Keeps xs ys :=
  ⟨[], nofun, (List.append_nil xs).symm ▸ h⟩

theorem trans_perm (h : Keeps xs ys) (h' : ys.Perm zs) : Keeps xs zs := by
  obtain ⟨dropped, hreads, hperm⟩ := h
  exact ⟨dropped, hreads, hperm.trans h'⟩

theorem append (h : Keeps xs ys) (h' : Keeps zs us) : Keeps (xs ++ zs) (ys ++ us) := by
  obtain ⟨dropped, hreads, hperm⟩ := h
  obtain ⟨dropped', hreads', hperm'⟩ := h'
  refine ⟨dropped ++ dropped', fun c hc => ?_, ?_⟩
  · exact (List.mem_append.mp hc).elim (hreads c) (hreads' c)
  · refine List.Perm.trans ?_ (hperm.append hperm')
    rw [List.append_assoc, List.append_assoc, ← List.append_assoc zs, ← List.append_assoc dropped]
    exact (List.perm_append_comm.append_right dropped').append_left xs

theorem trans (h : Keeps xs ys) (h' : Keeps ys zs) : Keeps xs zs := by
  obtain ⟨dropped, hreads, hperm⟩ := h
  obtain ⟨dropped', hreads', hperm'⟩ := h'
  refine ⟨dropped ++ dropped', fun c hc => ?_, ?_⟩
  · exact (List.mem_append.mp hc).elim (hreads c) (hreads' c)
  · rw [← List.append_assoc]
    exact (hperm.append_right dropped').trans hperm'

/-- What corresponding elements keep, the lists keep. -/
theorem flatMap_of_forall₂ {α β : Type} {R : α → β → Prop} {as : List α} {bs : List β}
    {f : α → List Clause} {g : β → List Clause} (h : List.Forall₂ R as bs)
    (hR : ∀ a ∈ as, ∀ b, R a b → Keeps (g b) (f a)) : Keeps (bs.flatMap g) (as.flatMap f) := by
  induction h with
  | nil => exact .of_perm .rfl
  | @cons a b as bs hab _ ih =>
    rw [List.flatMap_cons, List.flatMap_cons]
    exact (hR a List.mem_cons_self b hab).append
      (ih fun c hc => hR c (List.mem_cons_of_mem _ hc))

theorem subset (h : Keeps xs ys) : xs ⊆ ys := by
  obtain ⟨dropped, -, hperm⟩ := h
  exact fun c hc => hperm.mem_iff.mp (List.mem_append_left _ hc)

end Clause.Keeps

/-- What is told in a block. -/
def Block.clauses (B : Block) : List Clause :=
  B.locals.map .binds ++ B.nodes.flatMap Node.clauses

namespace Block

variable {B : Block}

theorem clauses_collapse (B : Block) : B.collapse.clauses = B.clauses := by
  obtain ⟨locals, nodes⟩ := B
  unfold collapse
  split
  next h =>
    cases h
    rfl
  next n h =>
    cases h
    exact (List.append_nil _).symm
  next h =>
    cases h
    exact Node.clauses_eq _

theorem clauses_of_isEmpty (h : B.isEmpty = true) : B.clauses = [] := by
  obtain ⟨locals, nodes⟩ := B
  rw [isEmpty, Bool.and_eq_true, List.isEmpty_iff, List.isEmpty_iff] at h
  obtain ⟨rfl, rfl⟩ : nodes = [] ∧ locals = [] := h
  rfl

theorem clauses_cons_mark (B : Block) (l : Label) : (B.cons (.mark l)).clauses = B.clauses :=
  rfl

end Block

/-! ## Constructs -/

namespace Node

theorem clauses_branch (test : Expr) (yes no : Node) :
    (branch test yes no).clauses = .reads test :: (yes.clauses ++ no.clauses) := by
  rw [clauses_eq]
  simp [tells, children]

theorem clauses_ofLinks (links : List (Expr × Node)) (otherwise : Node) :
    (ofLinks links otherwise).clauses.Perm
      (links.map (fun l => .reads l.1) ++ (links.flatMap (·.2.clauses) ++ otherwise.clauses)) := by
  induction links with
  | nil => exact .rfl
  | cons link links ih =>
    show (branch link.1 link.2 (ofLinks links otherwise)).clauses.Perm _
    rw [clauses_branch, List.map_cons, List.flatMap_cons, List.cons_append]
    refine List.Perm.cons _ ((ih.append_left _).trans ?_)
    rw [List.append_assoc (link.2.clauses)]
    exact List.perm_append_comm_assoc _ _ _

theorem clauses_ofLoop (l : Loop) (body : Node) :
    (ofLoop l body).clauses = .reads l.condition :: body.clauses := by
  rw [ofLoop, clauses_eq, children, List.flatMap_singleton, clauses_branch]
  show [] ++ .reads l.condition :: (body.clauses ++ []) = _
  rw [List.nil_append, List.append_nil]

theorem clauses_withCleanup (s : Symbol) (producer : Expr) (body : Node) :
    (withCleanup s producer body).clauses =
      .binds s :: .assigns s producer :: (body.clauses ++ (disposal s).clauses) := by
  rw [withCleanup, clauses_eq]
  simp [tells, children, clauses_eq (.assign _ _), clauses_eq (.attempt _ _ _)]

theorem clauses_ofIteration (iterator : Symbol) (collection : Expr) (walk : Node) :
    (ofIteration iterator collection walk).clauses =
      .binds iterator :: .assigns iterator (.intrinsic .getIterator [collection]) ::
        (walk.clauses ++
          if iterator.ty.isDisposable then (disposal iterator).clauses else []) := by
  unfold ofIteration
  dsimp only
  split
  · exact clauses_withCleanup _ _ _
  · rw [clauses_eq]
    simp [tells, children, clauses_eq (.assign _ _)]

/-- An iteration tells what its statement tells, and what its body tells. -/
theorem clauses_walk {σ : Type} (iterator : Symbol) (collection : Expr) (l : Loop) (body : Node)
    (inside : σ) :
    (ofIteration iterator collection (ofLoop l body)).clauses.Perm
      ((Stmt.iteration iterator collection l inside).tells ++ body.clauses) := by
  rw [clauses_ofIteration, clauses_ofLoop, Stmt.tells]
  simp only [List.cons_append, List.append_assoc, List.nil_append]
  exact ((@List.perm_append_comm _ (.reads l.condition :: body.clauses) _).cons _).cons _

theorem clauses_switch (value : Expr) (arms : List (Arm Node)) (default : Option Node) :
    (switch value arms default).clauses =
      .reads value :: ((arms.flatMap Arm.values).map .reads ++
        (arms.flatMap (·.body.clauses) ++ default.toList.flatMap clauses)) := by
  rw [clauses_eq, children, List.flatMap_append, List.flatMap_map]
  rfl

theorem clauses_attempt (body : Node) (handlers : List (Handler Node)) (cleanup : Option Node) :
    (attempt body handlers cleanup).clauses =
      handlers.map (fun h => .catches h.kind h.binding) ++
        (body.clauses ++
          (handlers.flatMap (·.body.clauses) ++ cleanup.toList.flatMap clauses)) := by
  rw [clauses_eq, children, List.flatMap_cons, List.flatMap_append, List.flatMap_map]
  rfl

/-- The arms of a switch have the values and the clauses of its groups. -/
theorem clauses_arms (groups : List (Arm Block)) (otherwise : Node)
    (hotherwise : otherwise.clauses = []) :
    (groups.map (ofSwitch.arm Block.collapse otherwise)).flatMap Arm.values =
        groups.flatMap Arm.values ∧
      (groups.map (ofSwitch.arm Block.collapse otherwise)).flatMap (·.body.clauses) =
        groups.flatMap (·.body.clauses) := by
  rw [List.flatMap_map, List.flatMap_map]
  refine ⟨rfl, List.flatMap_congr fun g _ => ?_⟩
  unfold ofSwitch.arm
  dsimp only
  split
  next hempty => rw [hotherwise, Block.clauses_of_isEmpty hempty]
  next => exact g.body.clauses_collapse

theorem clauses_ofSwitch (value : Expr) (groups : List (Arm Block))
    (default : Option (Label × Block)) :
    (ofSwitch Block.collapse value groups default).clauses =
      .reads value :: ((groups.flatMap Arm.values).map .reads ++
        (groups.flatMap (·.body.clauses) ++ default.toList.flatMap (·.2.clauses))) := by
  cases default with
  | none =>
    obtain ⟨hvalues, hbodies⟩ := clauses_arms groups nop rfl
    rw [ofSwitch, clauses_switch, hvalues, hbodies]
    rfl
  | some d =>
    obtain ⟨fall, body⟩ := d
    obtain ⟨hvalues, hbodies⟩ := clauses_arms groups (jump fall) rfl
    rw [ofSwitch, clauses_switch, hvalues, hbodies, Option.toList_some, Option.toList_some,
      List.flatMap_singleton, List.flatMap_singleton, Block.clauses_collapse]
    split
    · rw [Block.clauses_cons_mark]
    · rfl

end Node

/-! ## Statements and scopes -/

namespace Stmt

variable {label? : String → Option Label}

/-- What a statement becomes tells what the statement and its blocks tell. -/
theorem Becomes.clauses {t : Stmt Block} {n : Node} (h : t.Becomes label? Block.collapse n) :
    Clause.Keeps n.clauses (t.tells ++ t.scopes.flatMap Block.clauses) := by
  have closed {α : Type} (xs : List α) (f : α → Block) :
      (xs.flatMap fun x => (f x).collapse.clauses) = xs.flatMap fun x => (f x).clauses :=
    List.flatMap_congr fun x _ => (f x).clauses_collapse
  cases h with
  | node n => exact .of_perm (.of_eq (List.append_nil _).symm)
  | goto placed => exact .of_perm .rfl
  | conditional links otherwise =>
    refine .of_perm ((Node.clauses_ofLinks _ _).trans (.of_eq ?_))
    rw [List.map_map, List.flatMap_map, tells, scopes, List.flatMap_append, List.flatMap_map]
    refine congrArg₂ _ rfl (congrArg₂ _ (closed links Prod.snd) ?_)
    cases otherwise with
    | none => rfl
    | some body => exact body.clauses_collapse.trans (List.append_nil _).symm
  | loop l body =>
    refine .of_perm (.of_eq ?_)
    rw [Node.clauses_ofLoop, Block.clauses_collapse]
    exact congrArg _ (List.append_nil _).symm
  | iteration iterator collection l body =>
    refine .of_perm ((Node.clauses_walk _ _ _ _ body).trans (.of_eq ?_))
    rw [Block.clauses_collapse, scopes, List.flatMap_singleton]
  | soleDefault value fall body =>
    refine ⟨[.reads value], List.forall_mem_singleton.mpr ⟨value, rfl⟩, ?_⟩
    rw [Block.clauses_collapse]
    refine (List.perm_append_singleton _ _).trans (.of_eq ?_)
    exact congrArg _ (List.append_nil _).symm
  | @switch value groups default nonempty =>
    refine .of_perm (.of_eq ?_)
    have hgroups : (groups.map fun g => (⟨g.values, g.body.getD .empty⟩ : Arm Block)).flatMap
        (·.body.clauses) = (groups.filterMap Arm.body).flatMap Block.clauses := by
      clear nonempty
      induction groups with
      | nil => rfl
      | cons g groups ih =>
        rw [List.map_cons, List.flatMap_cons, ih, List.filterMap_cons]
        cases g.body <;> rfl
    rw [Node.clauses_ofSwitch, hgroups, List.flatMap_map, tells, scopes, List.flatMap_append,
      List.cons_append]
    cases default <;> rfl
  | @attempt body handlers cleanup guarded =>
    refine .of_perm (.of_eq ?_)
    rw [Node.clauses_attempt, tells, scopes, List.flatMap_cons, List.flatMap_append,
      List.flatMap_map, List.flatMap_map, List.map_map, Block.clauses_collapse]
    refine congrArg₂ _ rfl (congrArg₂ _ rfl (congrArg₂ _ (closed handlers Handler.body) ?_))
    cases cleanup with
    | none => rfl
    | some body => exact congrArg (· ++ []) body.clauses_collapse
  | resource s producer body =>
    refine .of_perm ?_
    rw [Node.clauses_withCleanup, Block.clauses_collapse, tells, scopes, List.flatMap_singleton,
      List.cons_append, List.cons_append]
    exact (List.perm_append_comm.cons _).cons _

end Stmt

/-- A scope is assembled to a block that tells what the scope tells. -/
theorem Scope.clauses_of_assemble {label? : String → Option Label} {s : Scope} {B : Block}
    (h : s.assemble label? Block.collapse = .ok B) : Clause.Keeps B.clauses s.clauses := by
  induction s using induct generalizing B with
  | step s ih =>
    obtain ⟨hlocals, hall⟩ := assemble_ok h
    have hstmts : Clause.Keeps (B.nodes.flatMap Node.clauses)
        (s.stmts.flatMap fun stmt => stmt.tells ++ stmt.scopes.flatMap clauses) := by
      refine .flatMap_of_forall₂ hall ?_
      rintro stmt hstmt n ⟨t, ht, hbecomes⟩
      refine hbecomes.clauses.trans ?_
      rw [← Stmt.tells_map (assemble label? Block.collapse) stmt, ht, Stmt.tells_map]
      refine (Clause.Keeps.of_perm .rfl).append ?_
      refine .flatMap_of_forall₂ (forall₂_of_map ht) fun c hc B hB => ?_
      exact ih c (mem_children.mpr ⟨stmt, hstmt, hc⟩) hB
    rw [clauses_eq, Block.clauses, hlocals, tells, List.append_assoc, children, List.flatMap_assoc]
    exact (Clause.Keeps.of_perm .rfl).append
      (hstmts.trans_perm (List.flatMap_append_perm _ _ _).symm)

theorem Clause.flatMap_defaults {α : Type} {f : Clause → List α}
    (hf : ∀ l v, f (.defaults l v) = []) (l : Label) (value : Option Constant) :
    (value.toList.map (defaults l)).flatMap f = [] := by
  cases value with
  | none => rfl
  | some v => exact (List.flatMap_singleton _ _).trans (hf l v)

/-- A program tells what its scopes tell, and at its end the value that it gives by default. -/
theorem Builder.clauses_of_assemble {b : Builder} {a : Artifact} (ha : b.assemble = .ok a) :
    ∃ kept, Clause.Keeps kept b.top.clauses ∧
      a.body.clauses =
        kept ++ (Constant.zero? a.returnType).toList.map (.defaults a.returnLabel) := by
  obtain ⟨-, -, B, hB, hbody⟩ := assemble_ok ha
  refine ⟨B.clauses, Scope.clauses_of_assemble hB, ?_⟩
  rw [hbody, Node.clauses_eq]
  show [] ++ (B.collapse.clauses ++ (Node.clauses (.label _ _) ++ [])) = _
  rw [List.nil_append, List.append_nil, Block.clauses_collapse]
  cases Constant.zero? a.returnType <;> rfl

end StructuredFlow
