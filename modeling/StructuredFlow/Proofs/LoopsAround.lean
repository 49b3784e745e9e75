import StructuredFlow.Proofs.BuilderFits
import StructuredFlow.Proofs.NodeTree

/-
  Jumps and the innermost loop around them. In a tree of nodes, and in a tree of scopes, every jump
  leads to a label that is free to jump to from anywhere, or to one of the two labels of the
  innermost loop around it (`Node.JumpsInmost`, `Scope.JumpsInmost`). In a tree of scopes the loop
  around is known twice: by the statement that a scope belongs to, and by the role of its frame; the
  two agree, so the first loop along a chain is the innermost one of the statements around
  (`Scope.JumpsInmost.of_within`). Every edit keeps this (`Builder.Built.jumpsInmost`).
-/

namespace StructuredFlow

theorem findSome?_cons_or {α β : Type} (f : α → Option β) (x : α) (xs : List α) :
    (x :: xs).findSome? f = (f x).or (xs.findSome? f) := by
  rw [List.findSome?_cons]
  cases f x <;> rfl

variable {free free' : LabelId → Prop} {around : Option (Label × Label)}

namespace Node

variable {n c : Node}

/-- The two labels of a loop. -/
def loopLabels? : Node → Option (Label × Label)
  | loop _ leave next => some (leave, next)
  | _ => none

/-- Every jump in the tree leads to a free label or to a label of the innermost loop around it. For
what is in no loop of the tree, that is the one around the tree. -/
inductive JumpsInmost (free : LabelId → Prop) : Option (Label × Label) → Node → Prop
  | intro {around : Option (Label × Label)} {n : Node}
      (jump : ∀ l v, n = .goto l v → free l.id ∨ ∃ p ∈ around, l = p.1 ∨ l = p.2)
      (children : ∀ c ∈ n.children, JumpsInmost free (n.loopLabels?.or around) c) :
      JumpsInmost free around n

namespace JumpsInmost

theorem jump {l : Label} {v : Option Expr} (h : (Node.goto l v).JumpsInmost free around) :
    free l.id ∨ ∃ p ∈ around, l = p.1 ∨ l = p.2 := by
  cases h with
  | intro jump => exact jump l v rfl

theorem child (h : n.JumpsInmost free around) (hc : c ∈ n.children) :
    c.JumpsInmost free (n.loopLabels?.or around) := by
  cases h with
  | intro _ children => exact children c hc

theorem mono (h : n.JumpsInmost free around) (hfree : ∀ l, free l → free' l) :
    n.JumpsInmost free' around := by
  induction h with
  | intro jump _ ih => exact .intro (fun l v hn => (jump l v hn).imp_left (hfree l.id)) ih

/-- A node with nothing below it that is not a jump. -/
theorem leaf (hleaf : n.children = []) (hjump : ∀ l v, n ≠ .goto l v) :
    n.JumpsInmost free around := by
  refine .intro (fun l v hn => absurd hn (hjump l v)) fun c hc => ?_
  rw [hleaf] at hc
  exact absurd hc List.not_mem_nil

theorem goto {l : Label} (v : Option Expr)
    (hl : free l.id ∨ ∃ p ∈ around, l = p.1 ∨ l = p.2) : (Node.goto l v).JumpsInmost free around :=
  .intro (fun l' v' hn => by cases hn; exact hl) nofun

/-- Where a node stands, the innermost loop is the first one from the inside out. -/
theorem stands {outer : List Node} {hs : List (Handler Node)} (h : n.JumpsInmost free around)
    (hstands : n.Stands outer hs c) :
    c.JumpsInmost free ((outer.findSome? loopLabels?).or around) := by
  induction hstands with
  | here => exact h
  | @part outer hs d c _ mem ih =>
    rw [findSome?_cons_or, Option.or_assoc]
    exact ih.child (mem_children_iff.mpr (.inl mem))
  | @handler outer hs d k _ mem ih =>
    rw [findSome?_cons_or, Option.or_assoc]
    exact ih.child (mem_children_iff.mpr (.inr ⟨k, mem, rfl⟩))

end JumpsInmost

end Node

/-! ## Scopes -/

theorem Frame.loopLabels?_eq_some {fr : Frame} {leave next : Label} :
    fr.loopLabels? = some (leave, next) ↔ fr.role = .loopBody leave next := by
  unfold loopLabels?
  cases fr.role <;> simp

theorem Chain.loopLabels?_cons (fr : Frame) (c : Chain) :
    Chain.loopLabels? (fr :: c) = fr.loopLabels?.or c.loopLabels? :=
  findSome?_cons_or Frame.loopLabels? fr c

namespace Stmt

variable {σ τ : Type}

/-- The two labels of a statement that is a loop. -/
def loopLabels? : Stmt σ → Option (Label × Label)
  | loop l _ | iteration _ _ l _ => some (l.leave, l.next)
  | _ => none

theorem loopLabels?_map (f : σ → τ) (stmt : Stmt σ) :
    (stmt.map f).loopLabels? = stmt.loopLabels? := by
  cases stmt <;> rfl

theorem eq_node_of_map {f : σ → τ} {stmt : Stmt σ} {n : Node} (h : stmt.map f = .node n) :
    stmt = .node n := by
  cases stmt with
  | node m =>
    cases h
    rfl
  | _ => cases h

end Stmt

namespace Scope

/-- The same of a tree of scopes. A scope is the body of a loop if its statement is that loop. -/
inductive JumpsInmost (free : LabelId → Prop) : Option (Label × Label) → Scope → Prop
  | intro {around : Option (Label × Label)} {s : Scope}
      (nodes : ∀ n, Stmt.node n ∈ s.stmts → n.JumpsInmost free around)
      (roles : ∀ stmt ∈ s.stmts, ∀ c ∈ stmt.scopes, c.frame.loopLabels? = stmt.loopLabels?)
      (inner : ∀ stmt ∈ s.stmts, ∀ c ∈ stmt.scopes,
        JumpsInmost free (stmt.loopLabels?.or around) c) :
      JumpsInmost free around s

end Scope

/-- What a statement contributes to this. -/
structure Stmt.JumpsInmost (free : LabelId → Prop) (around : Option (Label × Label))
    (stmt : Stmt Scope) : Prop where
  node : ∀ n, stmt = .node n → n.JumpsInmost free around
  roles : ∀ c ∈ stmt.scopes, c.frame.loopLabels? = stmt.loopLabels?
  inner : ∀ c ∈ stmt.scopes, c.JumpsInmost free (stmt.loopLabels?.or around)

theorem Stmt.JumpsInmost.of_node {n : Node} (h : n.JumpsInmost free around) :
    (Stmt.node n).JumpsInmost free around where
  node _ hn := by cases hn; exact h
  roles := nofun
  inner := nofun

theorem Stmt.JumpsInmost.of_scope {stmt : Stmt Scope} {d : Scope} (hscopes : stmt.scopes = [d])
    (hrole : d.frame.loopLabels? = stmt.loopLabels?)
    (hd : d.JumpsInmost free (stmt.loopLabels?.or around)) : stmt.JumpsInmost free around where
  node n hn := by
    rw [hn] at hscopes
    cases hscopes
  roles := hscopes ▸ List.forall_mem_singleton.mpr hrole
  inner := hscopes ▸ List.forall_mem_singleton.mpr hd

namespace Scope

variable {root s : Scope}

theorem jumpsInmost_iff :
    s.JumpsInmost free around ↔ ∀ stmt ∈ s.stmts, stmt.JumpsInmost free around := by
  constructor
  · rintro ⟨nodes, roles, inner⟩ stmt hs
    exact ⟨fun n hn => nodes n (hn ▸ hs), roles stmt hs, inner stmt hs⟩
  · intro h
    exact .intro (fun n hn => (h _ hn).node n rfl) (fun stmt hs => (h stmt hs).roles)
      fun stmt hs => (h stmt hs).inner

theorem loopLabels?_update {id : ScopeId} {f : Scope → Scope}
    (hframe : ∀ t, (f t).frame.loopLabels? = t.frame.loopLabels?) (s : Scope) :
    (s.update id f).frame.loopLabels? = s.frame.loopLabels? := by
  rw [update_eq]
  split
  · exact hframe _
  · rfl

namespace JumpsInmost

theorem stmt (h : s.JumpsInmost free around) {stmt : Stmt Scope} (hs : stmt ∈ s.stmts) :
    stmt.JumpsInmost free around :=
  jumpsInmost_iff.mp h stmt hs

theorem of_empty (h : s.stmts = []) : s.JumpsInmost free around := by
  refine jumpsInmost_iff.mpr fun stmt hs => ?_
  rw [h] at hs
  exact absurd hs List.not_mem_nil

theorem mono (h : s.JumpsInmost free around) (hfree : ∀ l, free l → free' l) :
    s.JumpsInmost free' around := by
  induction h with
  | intro nodes roles _ ih => exact .intro (fun n hn => (nodes n hn).mono hfree) roles ih

/-- One step inwards the first loop along the chain is the statement's, if it is one. -/
theorem inside {c : Chain} (h : s.JumpsInmost free (Chain.loopLabels? (s.frame :: c)))
    {stmt : Stmt Scope} (hs : stmt ∈ s.stmts) {d : Scope} (hd : d ∈ stmt.scopes) :
    d.JumpsInmost free (Chain.loopLabels? (d.frame :: s.frame :: c)) := by
  rw [Chain.loopLabels?_cons d.frame, (h.stmt hs).roles d hd]
  exact (h.stmt hs).inner d hd

/-- Where a scope stands, the first loop along the chain is the innermost one around. -/
theorem of_within {c outer : Chain}
    (h : root.JumpsInmost free (Chain.loopLabels? (root.frame :: c))) (hs : Within root outer s) :
    s.JumpsInmost free (Chain.loopLabels? (s.frame :: (outer ++ c))) := by
  induction hs with
  | here => exact h
  | inside _ hc ih =>
    obtain ⟨stmt, hstmt, hc⟩ := mem_children.mp hc
    exact ih.inside hstmt hc

/-- A change of one scope that leaves the roles alone keeps this, if it keeps it where the scope
stands. -/
theorem update {c : Chain} {id : ScopeId} {f : Scope → Scope} (hroot : root.Distinct)
    (h : root.JumpsInmost free (Chain.loopLabels? (root.frame :: c)))
    (hframe : ∀ t, (f t).frame.loopLabels? = t.frame.loopLabels?)
    (hf : ∀ outer s, Within root outer s → s.frame.id = id →
      s.JumpsInmost free (Chain.loopLabels? (s.frame :: (outer ++ c))) →
      (f s).JumpsInmost free (Chain.loopLabels? (s.frame :: (outer ++ c)))) :
    (root.update id f).JumpsInmost free (Chain.loopLabels? (root.frame :: c)) := by
  induction root using induct generalizing c with
  | step root ih =>
    by_cases hid : root.frame.id = id
    · rw [hroot.update_eq hid]
      exact hf [] root .here hid h
    · rw [update_eq, if_neg hid]
      refine jumpsInmost_iff.mpr fun stmt hs => ?_
      obtain ⟨old, hold, rfl⟩ := List.mem_map.mp hs
      refine ⟨fun n hn => (h.stmt hold).node n (Stmt.eq_node_of_map hn), ?_, ?_⟩
      · rw [Stmt.scopes_map, Stmt.loopLabels?_map]
        refine List.forall_mem_map.mpr fun d hd => ?_
        rw [loopLabels?_update hframe]
        exact (h.stmt hold).roles d hd
      · rw [Stmt.scopes_map, Stmt.loopLabels?_map]
        refine List.forall_mem_map.mpr fun d hd => ?_
        have hmem : d ∈ root.children := mem_children.mpr ⟨old, hold, hd⟩
        have hchanged := ih d hmem (hroot.child hmem) (h.inside hold hd) fun outer s hs hid => ?_
        · rwa [Chain.loopLabels?_cons, (h.stmt hold).roles d hd] at hchanged
        · have := hf (outer ++ [root.frame]) s (hs.of_child hmem) hid
          rwa [List.append_assoc] at this

end JumpsInmost

end Scope

/-! ## Edits -/

namespace Builder

variable {F : Fragment → Prop} {b b' : Builder} {c : Chain}

/-- The statements that an operation adds lead to the innermost loop along the chain, to the return
label, or to a label that they place themselves. -/
theorem Adds.jumpsInmost {stmts : List (Stmt Scope)} (h : b.Adds F c stmts b')
    (hreturn : free b.returnLabel.id)
    (hmarks : ∀ s ∈ stmts.flatMap Stmt.scopes, ∀ l, s.Marks l → free l) :
    ∀ stmt ∈ stmts, stmt.JumpsInmost free c.loopLabels? := by
  cases h with
  | @jump leave next loop j =>
    refine List.forall_mem_singleton.mpr (.of_node (.goto none (.inr ⟨_, loop, ?_⟩)))
    cases j with
    | leave => exact .inl rfl
    | next => exact .inr rfl
  | returnValue => exact List.forall_mem_singleton.mpr (.of_node (.goto _ (.inl hreturn)))
  | returnVoid => exact List.forall_mem_singleton.mpr (.of_node (.goto _ (.inl hreturn)))
  | goto name => exact List.forall_mem_singleton.mpr ⟨nofun, nofun, nofun⟩
  | conditional => exact List.forall_mem_singleton.mpr (.of_scope rfl rfl (.of_empty rfl))
  | whileLoop => exact List.forall_mem_singleton.mpr (.of_scope rfl rfl (.of_empty rfl))
  | doWhile =>
    have hentry : free b.newEntry.id := by
      refine hmarks (b.newBody.push (.node (.label b.newEntry none))) ?_ b.newEntry.id ?_
      · exact List.mem_singleton_self _
      · exact ⟨[], _, .here, .label b.newEntry none, List.mem_singleton_self _, beq_self_eq_true _⟩
    refine List.forall_mem_cons.mpr ⟨.of_node (.goto _ (.inl hentry)), ?_⟩
    refine List.forall_mem_singleton.mpr (.of_scope rfl rfl (Scope.jumpsInmost_iff.mpr ?_))
    exact List.forall_mem_singleton.mpr (.of_node (.leaf rfl nofun))
  | iteration =>
    refine List.forall_mem_singleton.mpr (.of_scope rfl rfl (Scope.jumpsInmost_iff.mpr ?_))
    exact List.forall_mem_singleton.mpr (.of_node (.leaf rfl nofun))
  | switch => exact List.forall_mem_singleton.mpr ⟨nofun, nofun, nofun⟩
  | attempt => exact List.forall_mem_singleton.mpr (.of_scope rfl rfl (.of_empty rfl))
  | resource => exact List.forall_mem_singleton.mpr (.of_scope rfl rfl (.of_empty rfl))
  | _ => exact List.forall_mem_singleton.mpr (.of_node (.leaf rfl nofun))

/-- A construct that grows is no loop, and no body of a loop comes in. -/
theorem Grows.jumpsInmost {old new : Stmt Scope} (h : b.Grows F c old new b')
    (hold : old.JumpsInmost free around) : new.JumpsInmost free around := by
  obtain ⟨extra, -, hscopes, hextra⟩ := h.newScopes
  have hnew : ∀ d ∈ new.scopes, d ∈ old.scopes ∨ d ∈ extra := fun d hd =>
    List.mem_append.mp (hscopes.mem_iff.mp hd)
  obtain ⟨hnode, hloop, hloop'⟩ : (∀ n, new ≠ .node n) ∧ old.loopLabels? = none ∧
      new.loopLabels? = none := by
    cases h <;> exact ⟨nofun, rfl, rfl⟩
  refine ⟨fun n hn => absurd hn (hnode n), fun d hd => ?_, fun d hd => ?_⟩
  · rw [hloop', ← hloop]
    rcases hnew d hd with hd | hd
    · exact hold.roles d hd
    · rw [hloop, (hextra d hd).2]
  · rw [hloop', ← hloop]
    rcases hnew d hd with hd | hd
    · exact hold.inner d hd
    · exact .of_empty (hextra d hd).1

/-- The outermost scope is no loop's body, and jumps to other labels than those that can be jumped
to from there stay with the innermost loop. -/
structure JumpsInmost (b : Builder) : Prop where
  outside : b.top.frame.loopLabels? = none
  inside : b.top.JumpsInmost b.surroundings.targets none

theorem JumpsInmost.of_within {outer : Chain} {s : Scope} (hb : b.JumpsInmost)
    (hs : b.top.Within outer s) :
    s.JumpsInmost b.surroundings.targets (Chain.loopLabels? (s.frame :: outer)) := by
  have htop : b.top.JumpsInmost b.surroundings.targets (Chain.loopLabels? [b.top.frame]) := by
    rw [Chain.loopLabels?_cons, hb.outside]
    exact hb.inside
  have := htop.of_within hs
  rwa [List.append_nil] at this

/-- A change of one scope keeps this, if it leaves the nodes and the scopes there in place and the
roles alone, and keeps it where the scope stands. -/
theorem JumpsInmost.change {outer : Chain} {s : Scope} {f : Scope → Scope} (hb : b.JumpsInmost)
    (hdistinct : b.top.Distinct) (place : b.top.Within outer s)
    (htop : b'.top = b.top.update s.frame.id f) (hreturn : b'.returnLabel = b.returnLabel)
    (hkeep : ∀ c ∈ s.children, c ∈ (f s).children)
    (hnodes : ∀ n, Stmt.node n ∈ s.stmts → Stmt.node n ∈ (f s).stmts)
    (hframe : ∀ t, (f t).frame.loopLabels? = t.frame.loopLabels?)
    (hf : ∀ around, s.JumpsInmost b'.surroundings.targets around →
      around = Chain.loopLabels? (s.frame :: outer) →
      (f s).JumpsInmost b'.surroundings.targets around) : b'.JumpsInmost := by
  have hfree : ∀ l, b.surroundings.targets l → b'.surroundings.targets l := by
    rintro l (rfl | hl)
    · exact .inl (congrArg Label.id hreturn.symm)
    · exact .inr (htop ▸ hl.update hdistinct place hkeep hnodes)
  have houtside : b'.top.frame.loopLabels? = none := by
    rw [htop, Scope.loopLabels?_update hframe, hb.outside]
  have hroot : Chain.loopLabels? [b.top.frame] = none := by
    rw [Chain.loopLabels?_cons, hb.outside]
    rfl
  refine ⟨houtside, ?_⟩
  rw [htop, ← hroot]
  refine Scope.JumpsInmost.update hdistinct (hroot ▸ hb.inside.mono hfree) hframe ?_
  intro outer' s' hs' hid hs
  obtain ⟨rfl, rfl⟩ := hs'.unique hdistinct place hid
  rw [List.append_nil] at hs ⊢
  exact hf _ hs rfl

theorem Edit.jumpsInmost (h : b.Edit F b') (hb : b.JumpsInmost) (hdistinct : b.top.Distinct) :
    b'.JumpsInmost := by
  cases h with
  | param =>
    exact hb.change hdistinct .here rfl rfl (fun _ hc => hc) (fun _ hn => hn) (fun _ => rfl)
      fun _ hs _ => Scope.jumpsInmost_iff.mpr fun _ => hs.stmt
  | declare place =>
    exact hb.change hdistinct place rfl rfl (fun _ hc => hc) (fun _ hn => hn) (fun _ => rfl)
      fun _ hs _ => Scope.jumpsInmost_iff.mpr fun _ => hs.stmt
  | @add outer s stmts b₁ place adds =>
    have htop : (b₁.changing s.frame.id (addStmts stmts)).top =
        b.top.update s.frame.id (addStmts stmts) := by rw [changing, adds.top_eq]
    have hkeep := children_addStmts stmts s
    refine hb.change hdistinct place htop adds.alike.returnLabel hkeep
      (fun n hn => List.mem_append_left _ hn) (fun _ => rfl) fun around hs haround => ?_
    refine Scope.jumpsInmost_iff.mpr fun stmt hstmt => ?_
    rcases List.mem_append.mp hstmt with hstmt | hstmt
    · exact hs.stmt hstmt
    · rw [haround]
      refine adds.jumpsInmost (.inl (congrArg Label.id adds.alike.returnLabel.symm)) ?_ stmt hstmt
      intro t ht l hl
      refine .inr ?_
      rw [htop]
      exact marks_of_added hdistinct place ht hl
  | @grow outer s index old new b₁ place standing grows =>
    have htop : (b₁.changing s.frame.id (setStmt index new)).top =
        b.top.update s.frame.id (setStmt index new) := by rw [changing, grows.top_eq]
    refine hb.change hdistinct place htop grows.alike.returnLabel (grows.keeps_children standing)
      (fun n => grows.keeps_node standing) (fun _ => rfl) fun around hs _ => ?_
    refine Scope.jumpsInmost_iff.mpr fun stmt hstmt => ?_
    rcases List.mem_or_eq_of_mem_set hstmt with hstmt | rfl
    · exact hs.stmt hstmt
    · exact grows.jumpsInmost (hs.stmt (List.mem_of_getElem? standing))

/-- In every program the innermost loop around a jump is found along the chain of its scope. -/
theorem Built.jumpsInmost (h : b.Built F) : b.JumpsInmost := by
  induction h with
  | empty options returnType => exact ⟨rfl, .of_empty rfl⟩
  | edit built edit ih => exact edit.jumpsInmost ih built.numbered.distinct

end Builder

end StructuredFlow
