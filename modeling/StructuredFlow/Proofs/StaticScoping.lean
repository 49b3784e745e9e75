import Mathlib.Data.List.Flatten
import Mathlib.Data.List.Pairwise
import StructuredFlow.Proofs.Binders
import StructuredFlow.Proofs.LabelsClosed

/-
  Programs are statically scoped. Every symbol has one binder in the program, and without captures
  a symbol is read and assigned only inside of its binder: what was found along a chain of scopes is
  bound by a block or a handler around the node, or it is a parameter
  (`Node.Stands.bound`). The variable that walks a collection has no name, so nothing but the
  nodes of its own iteration speaks of it; they are counted (`Builder.Built.walk_mentions`).
-/

namespace StructuredFlow

/-! ## Binders around a place -/

namespace Node

variable {root n : Node} {around : List Node} {hs : List (Handler Node)} {Γ : Surroundings}

/-- The number belongs to a variable of a block around a place, or of a handler there. -/
def BoundAround (around : List Node) (hs : List (Handler Node)) (id : SymbolId) : Prop :=
  (∃ p ∈ around, ∃ locals body, p = .block locals body ∧ ∃ s ∈ locals, s.id = id) ∨
    ∃ h ∈ hs, ∃ s ∈ h.binding, s.id = id

theorem BoundAround.part {id : SymbolId} (h : BoundAround around hs id) (p : Node) :
    BoundAround (p :: around) hs id :=
  h.imp_left fun ⟨q, hq, hlocals⟩ => ⟨q, List.mem_cons_of_mem p hq, hlocals⟩

theorem BoundAround.handler {id : SymbolId} (h : BoundAround around hs id) (k : Handler Node) :
    BoundAround around (k :: hs) id :=
  h.imp_right fun ⟨k', hk', hbinding⟩ => ⟨k', List.mem_cons_of_mem k hk', hbinding⟩

/-- Where a node stands in a fitting tree it fits, and all that is bound there is bound around the
tree or around the place. -/
theorem Stands.bound (h : root.Stands around hs n) (hroot : root.Fits Γ) :
    ∃ Γ', n.Fits Γ' ∧ Γ'.captures = Γ.captures ∧
      ∀ id, Γ'.bound id → Γ.bound id ∨ BoundAround around hs id := by
  induction h with
  | here => exact ⟨Γ, hroot, rfl, fun _ => .inl⟩
  | @part around hs n c _ mem ih =>
    obtain ⟨Γ', hfits, hcaptures, hbound⟩ := ih
    refine ⟨_, hfits.part mem, (captures_within _ _).trans hcaptures, fun id hid => ?_⟩
    have outer (hid : Γ'.bound id) : Γ.bound id ∨ BoundAround (n :: around) hs id :=
      (hbound id hid).imp_right (·.part n)
    cases n with
    | block locals body =>
      rcases hid with hid | hlocal
      · exact outer hid
      · exact .inr (.inl ⟨_, List.mem_cons_self, locals, body, rfl, hlocal⟩)
    | _ => exact outer hid
  | @handler around hs n h _ mem ih =>
    obtain ⟨Γ', hfits, hcaptures, hbound⟩ := ih
    refine ⟨_, hfits.handler mem, (captures_within _ _).trans hcaptures, fun id hid => ?_⟩
    have outer (hid : Γ'.bound id) : Γ.bound id ∨ BoundAround (n :: around) (h :: hs) id :=
      (hbound id hid).imp_right fun hid => (hid.part n).handler h
    cases n with
    | attempt body handlers cleanup =>
      rcases hid with hid | ⟨s, hs, hsid⟩
      · exact outer hid
      · exact .inr (.inr ⟨h, List.mem_cons_self, s, Option.mem_toList.mp hs, hsid⟩)
    | _ => exact absurd mem List.not_mem_nil

/-- A fitting node mentions nothing but what is bound where it stands, if nothing is captured. -/
theorem Fits.bound_of_mentions (h : n.Fits Γ) (hcaptures : ¬ Γ.captures) {id : SymbolId}
    (hid : n.Mentions id) : Γ.bound id := by
  rcases hid with ⟨e, he, s, hs, rfl⟩ | ⟨target, value, hn, rfl⟩
  · exact ((h.checks.reads e he).vars s hs).resolve_left hcaptures
  · exact h.checks.writes target value hn

/-- With one binder for each number, two nodes that bind one number are the same. -/
theorem binder_unique (hnodup : (root.binders.map Symbol.id).Nodup) {m : Node} {x y : Symbol}
    (hn : n ∈ root.subnodes) (hm : m ∈ root.subnodes) (hx : x ∈ n.binds) (hy : y ∈ m.binds)
    (hid : x.id = y.id) : n = m := by
  by_contra hne
  obtain ⟨-, hapart⟩ := List.nodup_flatMap.mp (List.map_flatMap ▸ hnodup)
  have hsymm : Std.Symm (Function.onFun List.Disjoint fun n : Node => n.binds.map Symbol.id) :=
    ⟨fun _ _ h _ hx hy => h hy hx⟩
  exact hapart.forall hn hm hne (List.mem_map_of_mem hx) (hid ▸ List.mem_map_of_mem hy)

/-- What handles around a place is a handler of the tree. -/
theorem Stands.handler_mem (h : root.Stands around hs n) {k : Handler Node} (hk : k ∈ hs) :
    ∃ p ∈ root.subnodes, k ∈ p.handlers := by
  induction h with
  | here => exact absurd hk List.not_mem_nil
  | part _ _ ih => exact ih hk
  | handler outer mem ih =>
    rcases List.mem_cons.mp hk with rfl | hk
    · exact ⟨_, outer.mem_subnodes, mem⟩
    · exact ih hk

theorem mem_binds_of_binding {k : Handler Node} (hk : k ∈ n.handlers) {s : Symbol}
    (hs : s ∈ k.binding) : s ∈ n.binds := by
  cases n with
  | attempt body handlers cleanup =>
    exact List.mem_flatMap.mpr ⟨k, hk, Option.mem_toList.mpr hs⟩
  | _ => exact absurd hk List.not_mem_nil

/-- What is bound around a place, and bound by a block of the tree, is bound by that block around
the place, if no number is bound twice. -/
theorem BoundAround.of_binds (hplace : root.Stands around hs n)
    (hnodup : (root.binders.map Symbol.id).Nodup) {p : Node} (hp : p ∈ root.subnodes)
    (hblock : p.handlers = []) {s : Symbol} (hs' : s ∈ p.binds) (h : BoundAround around hs s.id) :
    p ∈ around := by
  rcases h with ⟨q, hq, locals, body, rfl, x, hx, hid⟩ | ⟨k, hk, x, hx, hid⟩
  · have hqroot := hplace.around_mem_subnodes hq
    exact binder_unique hnodup hp hqroot hs' hx hid.symm ▸ hq
  · obtain ⟨q, hq, hkq⟩ := hplace.handler_mem hk
    obtain rfl := binder_unique hnodup hp hq hs' (mem_binds_of_binding hkq hx) hid.symm
    exact absurd (hblock ▸ hkq) List.not_mem_nil

/-- What a part of a tree mentions the tree does. -/
theorem count_mentions_le (hn : n ∈ root.subnodes) (id : SymbolId) :
    n.mentions.count id ≤ root.mentions.count id :=
  (((subnodes_sublist hn).flatMap tells).flatMap Clause.mentions).count_le id

theorem ofIteration_eq_block (iterator : Symbol) (collection : Expr) (walk : Node) :
    ∃ body, ofIteration iterator collection walk = .block [iterator] body := by
  unfold ofIteration
  dsimp only
  split
  · exact ⟨_, rfl⟩
  · exact ⟨_, rfl⟩

/-- In an iteration that mentions its iterator as often as the walk needs, neither the collection
nor what follows the assignment of the element mentions it. -/
theorem apart_of_count {iterator item : Symbol} {collection : Expr} {l : Loop} {body : Block}
    {element : Ty} {rest : List Node} (hsteps : l.condition = .intrinsic .moveNext [.var iterator])
    (hnodes : body.nodes =
      .assign item (Builder.currentOf iterator element item.ty) :: rest)
    (hcount : (ofIteration iterator collection (ofLoop l body.collapse)).mentions.count iterator.id ≤
      iterator.walks) :
    (∀ s ∈ collection.vars, s.id ≠ iterator.id) ∧
      ∀ n ∈ rest, ∀ m ∈ n.subnodes, ¬ m.Mentions iterator.id := by
  have hfetch : (body.clauses.flatMap Clause.mentions).count iterator.id =
      [item.id, iterator.id].count iterator.id +
        ((rest.flatMap clauses).flatMap Clause.mentions).count iterator.id := by
    have hlocals : (body.locals.map Clause.binds).flatMap Clause.mentions = [] :=
      List.flatMap_eq_nil_iff.mpr fun c hc => by
        obtain ⟨x, -, rfl⟩ := List.mem_map.mp hc
        rfl
    rw [Block.clauses, hnodes, List.flatMap_append, hlocals, List.nil_append, List.flatMap_cons,
      List.flatMap_append, List.count_append, clauses_eq (.assign _ _)]
    simp [tells, children, Clause.mentions, Builder.vars_currentOf]
  have hwalk := (clauses_walk iterator collection l body.collapse ()).flatMap_right Clause.mentions
  have htells := Stmt.count_mentions_iteration collection () hsteps
  rw [mentions, hwalk.count_eq, List.flatMap_append, List.count_append, Block.clauses_collapse,
    hfetch] at hcount
  have hitem : 1 ≤ [item.id, iterator.id].count iterator.id :=
    List.one_le_count_iff.mpr (List.mem_cons_of_mem _ (List.mem_singleton_self _))
  have hcollection : (collection.vars.map Symbol.id).count iterator.id = 0 := by omega
  have hrest : ((rest.flatMap clauses).flatMap Clause.mentions).count iterator.id = 0 := by omega
  constructor
  · intro s hs hid
    exact List.count_eq_zero.mp hcollection (hid ▸ List.mem_map_of_mem hs)
  · intro n hn m hm hid
    refine List.count_eq_zero.mp hrest (List.mem_flatMap.mpr ?_)
    obtain ⟨c, hc, hid⟩ := List.mem_flatMap.mp (mentions_iff.mp hid)
    exact ⟨c, List.mem_flatMap.mpr ⟨n, hn, List.mem_flatMap.mpr ⟨m, hm, hc⟩⟩, hid⟩

/-- Only the nodes that an iteration of the tree is made of mention its iterator: the assignment of
it, the step before each round, the assignment of the element at the start of the round, and the
disposal. -/
structure Secludes (root : Node) (iterator : Symbol) (collection : Expr) (l : Loop)
    (body : Block) : Prop where
  steps : l.condition = .intrinsic .moveNext [.var iterator]
  apart : ∀ s ∈ collection.vars, s.id ≠ iterator.id
  fetches : ∃ item element rest,
    body.nodes = .assign item (Builder.currentOf iterator element item.ty) :: rest ∧
      ∀ n ∈ rest, ∀ m ∈ n.subnodes, ¬ m.Mentions iterator.id
  inside : ∀ around hs n, root.Stands around hs n → n.Mentions iterator.id →
    ofIteration iterator collection (ofLoop l body.collapse) ∈ around

end Node

/-! ## Iterations -/

/-- The scope begins by taking the element that the iterator stands at into a variable of its
own. -/
def Scope.Fetches (iterator : Symbol) (s : Scope) : Prop :=
  ∃ item element rest, s.stmts =
      .node (.assign item (Builder.currentOf iterator element item.ty)) :: rest ∧
    item ∈ s.frame.locals ∧ iterator.ty.elementType? = some element

/-- An iteration walks with a variable without a name, of the type that fits the collection: it
steps before each round, and takes the element at the start of it. -/
def Stmt.Walks : Stmt Scope → Prop
  | iteration iterator collection l body =>
    iterator.name = none ∧ collection.type.iteratorType? = some iterator.ty ∧
      l.condition = .intrinsic .moveNext [.var iterator] ∧ body.Fetches iterator
  | _ => True

/-- All iterations of a tree walk. -/
def Scope.Walks (s : Scope) : Prop :=
  ∀ outer t, Within s outer t → ∀ stmt ∈ t.stmts, stmt.Walks

namespace Scope

variable {root s c : Scope} {outer : Chain} {f : Scope → Scope}

/-- In a scope without scopes there is no iteration. -/
theorem Walks.of_leaf (hc : c.children = []) : c.Walks := by
  intro o t ht stmt hstmt
  rcases ht.cases_root with ⟨-, rfl⟩ | ⟨d, hd, -⟩
  · cases stmt with
    | iteration iterator collection l body =>
      have hbody : body ∈ t.children := mem_children.mpr ⟨_, hstmt, List.mem_singleton_self body⟩
      exact absurd (hc ▸ hbody) List.not_mem_nil
    | _ => trivial
  · exact absurd (hc ▸ hd) List.not_mem_nil

/-- A change of one scope keeps all iterations walking, if it leaves the scope's first statement in
its place and brings in nothing but iterations that walk. -/
theorem Walks.update (h : root.Walks) (hroot : root.Distinct) (hs : Within root outer s)
    (hfetches : ∀ iterator, s.Fetches iterator → (f s).Fetches iterator)
    (hstmts : ∀ stmt ∈ (f s).stmts, stmt ∈ s.stmts ∨ stmt.Walks)
    (hnew : ∀ c ∈ (f s).children, c ∉ s.children → c.Walks) :
    (root.update s.frame.id f).Walks := by
  intro o t ht stmt hstmt
  rcases Within.of_update hroot hs rfl ht with ⟨o', u, hu, -, rfl⟩ | ⟨c, hc, hcnew, inner, -, hin⟩
  · by_cases hid : u.frame.id = s.frame.id
    · obtain ⟨-, rfl⟩ := hu.unique hroot hs hid
      rw [(hu.distinct hroot).update_eq rfl] at hstmt
      exact (hstmts stmt hstmt).elim (h _ _ hu stmt) id
    · rw [stmts_update_of_ne hid] at hstmt
      obtain ⟨old, hold, rfl⟩ := List.mem_map.mp hstmt
      have hwalks := h _ _ hu old hold
      cases old with
      | iteration iterator collection l body =>
        obtain ⟨hname, htype, hcondition, hbody⟩ := hwalks
        refine ⟨hname, htype, hcondition, ?_⟩
        have hin : Within root (u.frame :: o') body :=
          hu.inside (mem_children.mpr ⟨_, hold, List.mem_singleton_self body⟩)
        by_cases hbid : body.frame.id = s.frame.id
        · obtain ⟨-, rfl⟩ := hin.unique hroot hs hbid
          rw [(hin.distinct hroot).update_eq rfl]
          exact hfetches iterator hbody
        · obtain ⟨item, element, rest, hbody, hitem, helement⟩ := hbody
          refine ⟨item, element, _, by rw [stmts_update_of_ne hbid, hbody]; rfl, ?_, helement⟩
          rwa [frame_update_of_ne hbid]
      | _ => trivial
  · exact hnew c hc hcnew inner t hin stmt hstmt

end Scope

namespace Builder

variable {F : Fragment → Prop} {b b' : Builder} {c : Chain} {a : Artifact}

theorem Adds.walks {stmts : List (Stmt Scope)} (h : b.Adds F c stmts b') :
    ∀ stmt ∈ stmts, stmt.Walks := by
  cases h with
  | @iteration collection name iteratorType element ty settled iterable yields =>
    refine List.forall_mem_singleton.mpr ⟨rfl, iterable, rfl, b.newSymbol 1 name ty, element, [],
      rfl, List.mem_append_right _ (List.mem_singleton_self _), yields⟩
  | doWhile => exact List.forall_mem_cons.mpr ⟨trivial, List.forall_mem_singleton.mpr trivial⟩
  | _ => exact List.forall_mem_singleton.mpr trivial

theorem Grows.walks {old new : Stmt Scope} (h : b.Grows F c old new b') : new.Walks := by
  cases h <;> trivial

theorem Edit.walks (h : b.Edit F b') (hdistinct : b.top.Distinct) (hwalks : b.top.Walks) :
    b'.top.Walks := by
  cases h with
  | param =>
    refine hwalks.update (f := addImplicit _) hdistinct .here (fun _ h => h) (fun _ => .inl) ?_
    exact fun c hc hnew => absurd hc hnew
  | declare place =>
    refine hwalks.update (f := addLocal _) hdistinct place ?_ (fun _ => .inl) ?_
    · rintro iterator ⟨item, element, rest, hs, hitem, helement⟩
      exact ⟨item, element, rest, hs, List.mem_append_left _ hitem, helement⟩
    · exact fun c hc hnew => absurd hc hnew
  | @add outer s stmts b₁ place adds =>
    rw [changing, adds.top_eq]
    refine hwalks.update hdistinct place ?_ (fun stmt hstmt => ?_) fun c hc hnew => ?_
    · rintro iterator ⟨item, element, rest, hs, hfetches⟩
      exact ⟨item, element, rest ++ stmts, congrArg (· ++ stmts) hs, hfetches⟩
    · exact (List.mem_append.mp hstmt).imp_right (adds.walks stmt)
    · rw [addStmts_children] at hc
      exact .of_leaf (adds.newScopes.leaf ((List.mem_append.mp hc).resolve_left hnew))
  | @grow outer s index old new b₁ place standing grows =>
    rw [changing, grows.top_eq]
    obtain ⟨extra, hextra, hperm, -⟩ := grows.newScopes
    refine hwalks.update hdistinct place ?_ (fun stmt hstmt => ?_) fun c hc hnew => ?_
    · -- What grows is no node, so it is not the first statement.
      rintro iterator ⟨item, element, rest, hs, hfetches⟩
      cases index with
      | zero =>
        rw [hs] at standing
        exact absurd (Option.some.inj standing).symm (grows.ne_node _)
      | succ k => exact ⟨item, element, rest.set k new, by rw [setStmt, hs]; rfl, hfetches⟩
    · rcases List.mem_or_eq_of_mem_set hstmt with hstmt | rfl
      · exact .inl hstmt
      · exact .inr grows.walks
    · have hc := (setStmt_children standing hperm).mem_iff.mp hc
      exact .of_leaf (hextra.leaf ((List.mem_append.mp hc).resolve_left hnew))

theorem Built.walks (h : b.Built F) : b.top.Walks := by
  induction h with
  | empty options returnType => exact .of_leaf rfl
  | edit built edit ih => exact edit.walks built.numbered.distinct ih

/-! ## The program -/

/-- A program binds the symbols of its builder, and mentions no variable more often. -/
theorem binders_of_assemble (ha : b.assemble = .ok a) :
    a.binders.Perm (b.params ++ b.top.binders) ∧
      ∀ id, a.body.mentions.count id ≤ b.top.mentions.count id := by
  obtain ⟨hparams, -⟩ := assemble_ok ha
  obtain ⟨kept, ⟨dropped, hreads, hperm⟩, hclauses⟩ := clauses_of_assemble ha
  constructor
  · have hdropped : dropped.flatMap Clause.binders = [] := by
      refine List.flatMap_eq_nil_iff.mpr fun c hc => ?_
      obtain ⟨e, rfl⟩ := hreads c hc
      rfl
    have hbinders := hperm.flatMap_right Clause.binders
    rw [List.flatMap_append, hdropped, List.append_nil] at hbinders
    rw [Artifact.binders, hparams, Node.binders_eq_clauses, hclauses, List.flatMap_append,
      Clause.flatMap_defaults fun _ _ => rfl, List.append_nil]
    exact hbinders.append_left _
  · intro id
    have hmentions := hperm.flatMap_right Clause.mentions
    rw [List.flatMap_append] at hmentions
    rw [Node.mentions, hclauses, List.flatMap_append, Clause.flatMap_defaults fun _ _ => rfl,
      List.append_nil, Scope.mentions, ← hmentions.count_eq, List.count_append]
    exact Nat.le_add_right _ _

/-- A scope that begins by taking an element is assembled to a block that does. -/
theorem nodes_of_fetches {label? : String → Option Label} {s : Scope} {B : Block}
    {iterator : Symbol} (hs : s.Fetches iterator)
    (h : s.assemble label? Block.collapse = .ok B) :
    ∃ item element rest, B.nodes = .assign item (currentOf iterator element item.ty) :: rest ∧
      item ∈ B.locals ∧ iterator.ty.elementType? = some element := by
  obtain ⟨hlocals, hall⟩ := Scope.assemble_ok h
  obtain ⟨item, element, stmts, hstmts, hitem, helement⟩ := hs
  rw [hstmts] at hall
  obtain ⟨n, rest, ⟨t, ht, hbecomes⟩, -, hnodes⟩ := List.forall₂_cons_left_iff.mp hall
  refine ⟨item, element, rest, hnodes.trans (congrArg (· :: rest) ?_), hlocals ▸ hitem, helement⟩
  cases hbecomes with
  | node n => exact (Stmt.node.inj ht).symm
  | _ => cases ht

/-- Without captures, a node mentions what a parameter, a block around it or a handler around it
binds. -/
theorem Reachable.bound_of_mentions (hb : b.Reachable)
    (hcaptures : b.options.allowCaptures = false) (ha : b.assemble = .ok a) {around : List Node}
    {hs : List (Handler Node)} {n : Node} (h : a.body.Stands around hs n) {id : SymbolId}
    (hid : n.Mentions id) : (∃ x ∈ a.params, x.id = id) ∨ Node.BoundAround around hs id := by
  obtain ⟨Γ, hfits, hΓ, hbound⟩ := h.bound (hb.body_fits ha)
  refine hbound id (hfits.bound_of_mentions (fun hc => ?_) hid)
  rw [hΓ] at hc
  exact absurd (hcaptures.symm.trans hc) Bool.false_ne_true

/-- In a program no number is bound twice. -/
theorem Built.binders_nodup (hb : b.Built F) (ha : b.assemble = .ok a) :
    (a.binders.map Symbol.id).Nodup :=
  (((binders_of_assemble ha).1.map Symbol.id).trans hb.binders_perm).nodup_iff.mpr List.nodup_range

theorem Built.body_binders_nodup (hb : b.Built F) (ha : b.assemble = .ok a) :
    (a.body.binders.map Symbol.id).Nodup := by
  have hnodup := hb.binders_nodup ha
  rw [Artifact.binders, List.map_append] at hnodup
  exact hnodup.of_append_right

/-- What a node of the body binds is no parameter. -/
theorem Built.not_param (hb : b.Built F) (ha : b.assemble = .ok a) {n : Node}
    (hn : n ∈ a.body.subnodes) {x : Symbol} (hx : x ∈ n.binds) :
    x.id ∉ a.params.map Symbol.id := by
  have hnodup := hb.binders_nodup ha
  rw [Artifact.binders, List.map_append] at hnodup
  have hmem : x ∈ a.body.binders := List.mem_flatMap.mpr ⟨n, hn, hx⟩
  exact fun h => List.disjoint_of_nodup_append hnodup h (List.mem_map_of_mem hmem)

/-- Without captures, what a block binds is mentioned only inside of the block. -/
theorem Reachable.inside_of_mentions (hb : b.Reachable)
    (hcaptures : b.options.allowCaptures = false) (ha : b.assemble = .ok a) {p : Node}
    (hp : p ∈ a.body.subnodes) (hblock : p.handlers = []) {x : Symbol} (hx : x ∈ p.binds)
    {around : List Node} {hs : List (Handler Node)} {n : Node} (h : a.body.Stands around hs n)
    (hid : n.Mentions x.id) : p ∈ around := by
  rcases hb.bound_of_mentions hcaptures ha h hid with ⟨y, hy, hyid⟩ | haround
  · exact absurd (hyid ▸ List.mem_map_of_mem hy) (hb.built.not_param ha hp hx)
  · exact haround.of_binds h (hb.built.body_binders_nodup ha) hp hblock hx

/-- What an iteration becomes: its body takes the element that the iterator stands at into a local
of its own, and the iterator is of the type that fits the collection. -/
theorem Built.iteration_translates (hb : b.Built F) (ha : b.assemble = .ok a) {outer : Chain}
    {s : Scope} (hs : b.top.Within outer s) {i : Nat} {iterator : Symbol} {collection : Expr}
    {l : Loop} {body : Scope} (hi : s.stmts[i]? = some (.iteration iterator collection l body)) :
    iterator.name = none ∧ collection.type.iteratorType? = some iterator.ty ∧
      l.condition = .intrinsic .moveNext [.var iterator] ∧
        ∃ (B : Block) (item : Symbol) (element : Ty) (rest : List Node),
          b.Translates a s i (Node.ofIteration iterator collection (Node.ofLoop l B.collapse)) ∧
            B.nodes = .assign item (currentOf iterator element item.ty) :: rest ∧
              item ∈ B.locals ∧ iterator.ty.elementType? = some element := by
  obtain ⟨n, t, htranslates, ht, hbecomes⟩ := exists_translates ha hs hi
  obtain ⟨hname, htype, hcondition, hfetches⟩ := hb.walks _ _ hs _ (List.mem_of_getElem? hi)
  refine ⟨hname, htype, hcondition, ?_⟩
  cases hbecomes with
  | iteration iterator' collection' l' B =>
    simp only [Stmt.map, Stmt.iteration.injEq] at ht
    obtain ⟨rfl, rfl, rfl, hB⟩ := ht
    obtain ⟨item, element, rest, hnodes, hitem, helement⟩ := nodes_of_fetches hfetches hB
    exact ⟨B, item, element, rest, htranslates, hnodes, hitem, helement⟩
  | _ => cases ht

/-- Without captures, the iterator of an iteration is mentioned by the nodes that the iteration is
made of, and nowhere else. -/
theorem Reachable.secluded (hb : b.Reachable) (hcaptures : b.options.allowCaptures = false)
    (ha : b.assemble = .ok a) {iterator item : Symbol} {collection : Expr} {l : Loop} {B : Block}
    {element : Ty} {rest : List Node}
    (hwalk : Node.ofIteration iterator collection (Node.ofLoop l B.collapse) ∈ a.body.subnodes)
    (hname : iterator.name = none) (hcondition : l.condition = .intrinsic .moveNext [.var iterator])
    (hnodes : B.nodes = .assign item (currentOf iterator element item.ty) :: rest) :
    a.body.Secludes iterator collection l B := by
  obtain ⟨hbinders, hcount⟩ := binders_of_assemble ha
  obtain ⟨statements, hblock⟩ :=
    Node.ofIteration_eq_block iterator collection (Node.ofLoop l B.collapse)
  have hbinds :
      iterator ∈ (Node.ofIteration iterator collection (Node.ofLoop l B.collapse)).binds := by
    rw [hblock]
    exact List.mem_singleton_self iterator
  have hmem : iterator ∈ a.body.binders := List.mem_flatMap.mpr ⟨_, hwalk, hbinds⟩
  have hbound : iterator ∈ b.top.binders := by
    have hall := hbinders.mem_iff.mp (List.mem_append_right _ hmem)
    refine (List.mem_append.mp hall).resolve_left fun h => ?_
    exact hb.built.not_param ha hwalk hbinds ((assemble_ok ha).1 ▸ List.mem_map_of_mem h)
  have hwalks := (hb.built.mentions_walks hcaptures).2 iterator hbound hname
  have hle := (Node.count_mentions_le hwalk iterator.id).trans ((hcount _).trans_eq hwalks)
  obtain ⟨hapart, hrest⟩ := Node.apart_of_count hcondition hnodes hle
  refine ⟨hcondition, hapart, ⟨item, element, rest, hnodes, hrest⟩, fun around hs n h hid => ?_⟩
  refine hb.inside_of_mentions hcaptures ha hwalk ?_ hbinds h hid
  rw [hblock]
  rfl

/-- Each iteration of a program without captures secludes its iterator. -/
theorem Reachable.secludes (hb : b.Reachable) (hcaptures : b.options.allowCaptures = false)
    (ha : b.assemble = .ok a) {outer : Chain} {s : Scope} (hs : b.top.Within outer s) {i : Nat}
    {iterator : Symbol} {collection : Expr} {l : Loop} {body : Scope}
    (hi : s.stmts[i]? = some (.iteration iterator collection l body)) :
    ∃ B : Block,
      b.Translates a s i (Node.ofIteration iterator collection (Node.ofLoop l B.collapse)) ∧
        a.body.Secludes iterator collection l B := by
  obtain ⟨hname, -, hcondition, B, item, element, rest, htranslates, hnodes, -⟩ :=
    hb.built.iteration_translates ha hs hi
  obtain ⟨-, -, -, hwalk⟩ := id htranslates
  exact ⟨B, htranslates, hb.secluded hcaptures ha hwalk hname hcondition hnodes⟩

/-- A program that captures nothing is statically scoped. Each of its symbols has one binder: the
parameters, the variables of one block, or the variable of one handler. No expression has anything
left open, and what a node mentions is bound by a parameter or around the node. The iterator of an
iteration is mentioned only by the nodes that the iteration is made of. -/
theorem Reachable.statically_scoped (hb : b.Reachable)
    (hcaptures : b.options.allowCaptures = false) (ha : b.assemble = .ok a) :
    (a.binders.map Symbol.id).Perm (List.range b.symbolCount) ∧
      (∀ n ∈ a.body.subnodes, ∀ e ∈ n.reads, e.placeholders = []) ∧
      (∀ around hs n id, a.body.Stands around hs n → n.Mentions id →
        (∃ x ∈ a.params, x.id = id) ∨ Node.BoundAround around hs id) ∧
      ∀ outer s i iterator collection l body, b.top.Within outer s →
        s.stmts[i]? = some (.iteration iterator collection l body) →
        ∃ B : Block,
          b.Translates a s i (Node.ofIteration iterator collection (Node.ofLoop l B.collapse)) ∧
            a.body.Secludes iterator collection l B := by
  refine ⟨?_, fun n hn e he => ?_, fun around hs n id h hid => ?_, ?_⟩
  · exact ((binders_of_assemble ha).1.map Symbol.id).trans hb.built.binders_perm
  · obtain ⟨around, hs, h⟩ := Node.exists_stands hn
    obtain ⟨Γ, hfits, -, -⟩ := h.bound (hb.body_fits ha)
    exact (hfits.checks.reads e he).placeholders
  · exact hb.bound_of_mentions hcaptures ha h hid
  · exact fun outer s i iterator collection l body hs hi => hb.secludes hcaptures ha hs hi

/-- A loop over the elements of a parameter, with a statement that reads the element. -/
theorem statically_scoped_in_loop :
    ∃ (b : Builder) (a : Artifact), b.Reachable ∧ b.options.allowCaptures = false ∧
      b.assemble = .ok a ∧ (a.binders.map Symbol.id).Perm [0, 1, 2] ∧
      ∃ B : Block, B.collapse = .block [⟨2, "x", .int⟩]
          [.assign ⟨2, "x", .int⟩ (.intrinsic .current [.var ⟨1, none, .iterator .int true⟩]),
            .eval (.var ⟨2, "x", .int⟩)] ∧
        a.body.Secludes ⟨1, none, .iterator .int true⟩ (.var ⟨0, "xs", .list .int⟩)
          ⟨.intrinsic .moveNext [.var ⟨1, none, .iterator .int true⟩], .internal 2, .internal 1⟩
          B := by
  let xs : Symbol := ⟨0, "xs", .list .int⟩
  let iterator : Symbol := ⟨1, none, .iterator .int true⟩
  let item : Symbol := ⟨2, "x", .int⟩
  let l : Loop := ⟨.intrinsic .moveNext [.var iterator], .internal 2, .internal 1⟩
  let first : Node := .assign item (.intrinsic .current [.var iterator])
  let top (stmts : List (Stmt Scope)) : Scope := ⟨⟨0, .plain, [], [xs]⟩,
    [.iteration iterator (.var xs) l ⟨⟨1, .loopBody l.leave l.next, [item], []⟩, stmts⟩]⟩
  have hcreate : Builder.create ⟨"f", false⟩ [⟨"xs", .list .int⟩] .void =
      .ok ⟨⟨"f", false⟩, [xs], .internal 0, [], ⟨⟨0, .plain, [], [xs]⟩, []⟩, 1, 1, 1⟩ := rfl
  have hloop : Reachable
      ⟨⟨"f", false⟩, [xs], .internal 0, [], top [.node first], 2, 3, 4⟩ :=
    (Reachable.create hcreate).opening 0 (.forEach "x" .int ⟨[], .var xs⟩)
  have hread : Reachable
      ⟨⟨"f", false⟩, [xs], .internal 0, [], top [.node first, .node (.eval (.var item))], 2, 3, 4⟩ :=
    hloop.statement 1 (.act ⟨[⟨"x", .int⟩], .param ⟨"x", .int⟩⟩)
  refine ⟨_, _, hread, rfl, rfl, ?_⟩
  obtain ⟨hbinders, -, -, hiterations⟩ := hread.statically_scoped rfl rfl
  obtain ⟨B, ⟨B', hB', hi, -⟩, hsecludes⟩ := hiterations [] _ 0 _ _ _ _ .here rfl
  refine ⟨hbinders, B, ?_, hsecludes⟩
  cases hB'
  generalize B.collapse = body at hi ⊢
  cases hi
  rfl

end Builder

end StructuredFlow
