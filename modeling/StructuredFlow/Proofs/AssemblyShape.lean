import StructuredFlow.Assembly
import StructuredFlow.Proofs.ScopeTree

/-
  What a program is assembled to. Assembly succeeds only if all scopes in a statement could be
  assembled, and then the node depends on their blocks alone (`Stmt.Becomes`); so assembly is taken
  apart one statement at a time (`Stmt.assemble_ok`, `Scope.assemble_ok`). The places of labels
  survive: a label that is marked in a scope is defined by what the scope is assembled to
  (`Scope.defines_of_assemble`).
-/

namespace StructuredFlow

/-! ## Results of programs without state -/

section Except

variable {ε α β γ : Type}

theorem Except.andThen_ok {x : Except ε α} {f : α → Except ε β} {r : β} :
    (x >>= f) = .ok r ↔ ∃ a, x = .ok a ∧ f a = .ok r := by
  constructor
  · intro h
    cases x with
    | ok a => exact ⟨a, rfl, h⟩
    | error e => cases h
  · rintro ⟨a, rfl, h⟩
    exact h

theorem Except.map_ok {x : Except ε α} {f : α → β} {r : β} :
    (f <$> x) = .ok r ↔ ∃ a, x = .ok a ∧ f a = r := by
  cases x with
  | ok a =>
    constructor
    · intro h
      cases h
      exact ⟨a, rfl, rfl⟩
    · rintro ⟨_, h, rfl⟩
      cases h
      rfl
  | error e =>
    constructor
    · intro h
      cases h
    · rintro ⟨_, h, -⟩
      cases h

/-- A function is applied to all elements of a list: they and their results correspond. -/
theorem forall₂_of_mapM {f : α → Except ε β} {xs : List α} {ys : List β}
    (h : xs.mapM f = .ok ys) : List.Forall₂ (fun x y => f x = .ok y) xs ys := by
  induction xs generalizing ys with
  | nil =>
    cases h
    exact .nil
  | cons x xs ih =>
    rw [List.mapM_cons] at h
    obtain ⟨y, hy, h⟩ := Except.andThen_ok.mp h
    obtain ⟨rest, hrest, h⟩ := Except.andThen_ok.mp h
    cases h
    exact .cons hy (ih hrest)

/-- Conversely, results for all elements are the results of the list. -/
theorem mapM_of_forall₂ {f : α → Except ε β} {xs : List α} {ys : List β}
    (h : List.Forall₂ (fun x y => f x = .ok y) xs ys) : xs.mapM f = .ok ys := by
  induction h with
  | nil => rfl
  | @cons x y xs ys hx _ ih =>
    rw [List.mapM_cons, hx, ih]
    rfl

/-- What two functions make of the elements of one list corresponds. -/
theorem forall₂_map_map {R : α → β → Prop} {g : γ → α} {k : γ → β} {zs : List γ}
    (h : ∀ z ∈ zs, R (g z) (k z)) : List.Forall₂ R (zs.map g) (zs.map k) :=
  List.forall₂_map_left_iff.mpr (List.forall₂_map_right_iff.mpr (List.forall₂_same.mpr h))

theorem mapM_map_eq {f : α → Except ε β} {g : γ → α} {k : γ → β} (hf : ∀ z, f (g z) = .ok (k z))
    (zs : List γ) : (zs.map g).mapM f = .ok (zs.map k) :=
  mapM_of_forall₂ (forall₂_map_map fun z _ => hf z)

theorem option_mapM_map_eq {f : α → Except ε β} {g : γ → α} {k : γ → β}
    (hf : ∀ z, f (g z) = .ok (k z)) (z : Option γ) : (z.map g).mapM f = .ok (z.map k) := by
  cases z with
  | none => rfl
  | some z =>
    show some <$> f (g z) = _
    rw [hf]
    rfl

/-- If each element that has a result is made from something from which the result is made too,
this holds of lists. -/
theorem exists_of_mapM {f : α → Except ε β} {g : γ → α} {k : γ → β} {xs : List α} {ys : List β}
    (hf : ∀ x y, f x = .ok y → ∃ z, x = g z ∧ y = k z) (h : xs.mapM f = .ok ys) :
    ∃ zs : List γ, xs = zs.map g ∧ ys = zs.map k := by
  have hall := forall₂_of_mapM h
  clear h
  induction hall with
  | nil => exact ⟨[], rfl, rfl⟩
  | @cons x y xs ys hx _ ih =>
    obtain ⟨z, rfl, rfl⟩ := hf x y hx
    obtain ⟨zs, rfl, rfl⟩ := ih
    exact ⟨z :: zs, rfl, rfl⟩

theorem exists_of_option_mapM {f : α → Except ε β} {g : γ → α} {k : γ → β} {x : Option α}
    {y : Option β} (hf : ∀ x y, f x = .ok y → ∃ z, x = g z ∧ y = k z) (h : x.mapM f = .ok y) :
    ∃ z : Option γ, x = z.map g ∧ y = z.map k := by
  cases x with
  | none =>
    cases h
    exact ⟨none, rfl, rfl⟩
  | some x =>
    obtain ⟨r, hr, rfl⟩ := Except.map_ok.mp h
    obtain ⟨z, rfl, rfl⟩ := hf x r hr
    exact ⟨some z, rfl, rfl⟩

theorem exists_right_of_forall₂ {R : α → β → Prop} {xs : List α} {ys : List β}
    (h : List.Forall₂ R xs ys) {x : α} (hx : x ∈ xs) : ∃ y ∈ ys, R x y := by
  induction h with
  | nil => exact absurd hx List.not_mem_nil
  | @cons a b xs ys hab _ ih =>
    rcases List.mem_cons.mp hx with rfl | hx
    · exact ⟨b, List.mem_cons_self, hab⟩
    · obtain ⟨y, hy, hxy⟩ := ih hx
      exact ⟨y, List.mem_cons_of_mem _ hy, hxy⟩

theorem exists_left_of_forall₂ {R : α → β → Prop} {xs : List α} {ys : List β}
    (h : List.Forall₂ R xs ys) {y : β} (hy : y ∈ ys) : ∃ x ∈ xs, R x y :=
  exists_right_of_forall₂ h.flip hy

end Except

namespace Stmt

variable {label? : String → Option Label} {close : Block → Node}

/-- What a statement becomes once its scopes are blocks. -/
inductive Becomes (label? : String → Option Label) (close : Block → Node) : Stmt Block → Node → Prop
  | node (n : Node) : Becomes label? close (.node n) n
  | goto {name l} (placed : label? name = some l) : Becomes label? close (.goto name) (.jump l)
  | conditional (links : List (Expr × Block)) (otherwise : Option Block) :
      Becomes label? close (.conditional links otherwise)
        (.ofLinks (links.map fun l => (l.1, close l.2)) ((otherwise.map close).getD .nop))
  | loop (l : Loop) (body : Block) :
      Becomes label? close (.loop l body) (.ofLoop l (close body))
  | iteration (iterator : Symbol) (collection : Expr) (l : Loop) (body : Block) :
      Becomes label? close (.iteration iterator collection l body)
        (.ofIteration iterator collection (.ofLoop l (close body)))
  | soleDefault (value : Expr) (fall : Label) (body : Block) :
      Becomes label? close (.switch value [] (some (fall, body))) (close body)
  | switch {value groups default} (nonempty : groups ≠ []) :
      Becomes label? close (.switch value groups default)
        (.ofSwitch close value (groups.map fun g => ⟨g.values, g.body.getD .empty⟩) default)
  | attempt {body handlers cleanup} (guarded : handlers ≠ [] ∨ cleanup ≠ none) :
      Becomes label? close (.attempt body handlers cleanup)
        (.attempt (close body) (handlers.map fun h => ⟨h.kind, h.binding, close h.body⟩)
          (cleanup.map close))
  | resource (s : Symbol) (producer : Expr) (body : Block) :
      Becomes label? close (.resource s producer body) (.withCleanup s producer (close body))

/-- A block is closed once it is there. -/
theorem closed_ok {x : Assembled Block} {n : Node}
    (h : (x >>= fun body => return close body) = .ok n) : ∃ B, x = .ok B ∧ n = close B := by
  obtain ⟨B, hB, h⟩ := Except.andThen_ok.mp h
  cases h
  exact ⟨B, hB, rfl⟩

theorem link_ok (x : Expr × Assembled Block) (y : Expr × Node)
    (h : (x.2 >>= fun body => return (x.1, close body)) = (.ok y : Assembled _)) :
    ∃ z : Expr × Block, x = (z.1, .ok z.2) ∧ y = (z.1, close z.2) := by
  obtain ⟨B, hB, h⟩ := Except.andThen_ok.mp h
  cases h
  exact ⟨(x.1, B), by rw [← hB], rfl⟩

theorem group_ok (x : Arm (Option (Assembled Block))) (y : Arm Block)
    (h : (x.body.getD (return Block.empty) >>= fun body => return ⟨x.values, body⟩) = .ok y) :
    ∃ z : Arm (Option Block), x = ⟨z.values, z.body.map .ok⟩ ∧
      y = ⟨z.values, z.body.getD .empty⟩ := by
  obtain ⟨B, hB, h⟩ := Except.andThen_ok.mp h
  cases h
  obtain ⟨values, body⟩ := x
  cases body with
  | none =>
    cases hB
    exact ⟨⟨values, none⟩, rfl, rfl⟩
  | some x =>
    obtain rfl : x = .ok B := hB
    exact ⟨⟨values, some B⟩, rfl, rfl⟩

theorem handler_ok (x : Handler (Assembled Block)) (y : Handler Node)
    (h : (x.body >>= fun body => return ⟨x.kind, x.binding, close body⟩) =
      (.ok y : Assembled _)) :
    ∃ z : Handler Block, x = ⟨z.kind, z.binding, .ok z.body⟩ ∧
      y = ⟨z.kind, z.binding, close z.body⟩ := by
  obtain ⟨B, hB, h⟩ := Except.andThen_ok.mp h
  cases h
  exact ⟨⟨x.kind, x.binding, B⟩, by rw [← hB], rfl⟩

theorem default_ok (x : Label × Assembled Block) (y : Label × Block)
    (h : (x.2 >>= fun body => return (x.1, body)) = .ok y) :
    ∃ z : Label × Block, x = (z.1, .ok z.2) ∧ y = id z := by
  obtain ⟨B, hB, h⟩ := Except.andThen_ok.mp h
  cases h
  exact ⟨(x.1, B), by rw [← hB], rfl⟩

/-- A switch is assembled arm by arm; one that has a default only becomes the default. -/
theorem assemble_switch_ok {value : Expr} {groups : List (Arm (Option (Assembled Block)))}
    {default : Option (Label × Assembled Block)} {n : Node}
    (h : (switch value groups default).assemble label? close = .ok n) :
    ∃ t : Stmt Block, switch value groups default = t.map .ok ∧ t.Becomes label? close n := by
  cases groups with
  | nil =>
    cases default with
    | none => cases h
    | some d =>
      obtain ⟨B, hB, rfl⟩ := closed_ok h
      exact ⟨.switch value [] (some (d.1, B)), by rw [map, Option.map_some, ← hB]; rfl,
        .soleDefault value d.1 B⟩
  | cons g groups =>
    obtain ⟨groups', hgroups, h⟩ := Except.andThen_ok.mp h
    obtain ⟨default', hdefault, h⟩ := Except.andThen_ok.mp h
    obtain ⟨zs, hzs, rfl⟩ := exists_of_mapM (g := fun z : Arm (Option Block) =>
      ⟨z.values, z.body.map .ok⟩) (k := fun z => ⟨z.values, z.body.getD .empty⟩) group_ok hgroups
    obtain ⟨z, rfl, rfl⟩ := exists_of_option_mapM (g := fun z : Label × Block => (z.1, .ok z.2))
      (k := id) default_ok hdefault
    cases h
    refine ⟨.switch value zs z, by rw [hzs]; rfl, ?_⟩
    rw [Option.map_id_fun, id_eq]
    refine .switch fun hnil => ?_
    rw [hnil] at hzs
    cases hzs

/-- A guarded region that has a handler or a cleanup is assembled part by part. -/
theorem assemble_attempt (body : Assembled Block) {handlers : List (Handler (Assembled Block))}
    {cleanup : Option (Assembled Block)} (guarded : handlers ≠ [] ∨ cleanup ≠ none) :
    (attempt body handlers cleanup).assemble label? close =
      body >>= fun body =>
        handlers.mapM (fun h => h.body >>= fun body => return ⟨h.kind, h.binding, close body⟩) >>=
          fun handlers => cleanup.mapM (fun c => c >>= fun body => return close body) >>=
            fun cleanup => return .attempt (close body) handlers cleanup := by
  cases handlers with
  | cons h handlers => rfl
  | nil =>
    cases cleanup with
    | some c => rfl
    | none => exact absurd rfl (guarded.resolve_left fun h => h rfl)

theorem assemble_attempt_ok {body : Assembled Block} {handlers : List (Handler (Assembled Block))}
    {cleanup : Option (Assembled Block)} {n : Node}
    (h : (attempt body handlers cleanup).assemble label? close = .ok n) :
    ∃ t : Stmt Block, attempt body handlers cleanup = t.map .ok ∧ t.Becomes label? close n := by
  have hguarded : handlers ≠ [] ∨ cleanup ≠ none := by
    by_contra hnone
    obtain ⟨rfl, rfl⟩ := (not_or.mp hnone).imp not_not.mp not_not.mp
    cases h
  rw [assemble_attempt body hguarded] at h
  obtain ⟨B, rfl, hrest⟩ := Except.andThen_ok.mp h
  obtain ⟨handlers', hhandlers, hrest⟩ := Except.andThen_ok.mp hrest
  obtain ⟨cleanup', hcleanup, hrest⟩ := Except.andThen_ok.mp hrest
  obtain ⟨zs, rfl, rfl⟩ := exists_of_mapM (g := fun z : Handler Block =>
    ⟨z.kind, z.binding, .ok z.body⟩) (k := fun z => ⟨z.kind, z.binding, close z.body⟩) handler_ok
    hhandlers
  obtain ⟨z, rfl, rfl⟩ := exists_of_option_mapM (g := .ok) (k := close) (fun _ _ => closed_ok)
    hcleanup
  cases hrest
  refine ⟨.attempt B zs z, rfl, .attempt (hguarded.imp (fun hne hnil => ?_) fun hne hnone => ?_)⟩
  · exact hne (by rw [hnil, List.map_nil])
  · exact hne (by rw [hnone, Option.map_none])

/-- A statement is assembled if all of its scopes are, to what it becomes with their blocks. -/
theorem assemble_ok {stmt : Stmt (Assembled Block)} {n : Node}
    (h : stmt.assemble label? close = .ok n) :
    ∃ t : Stmt Block, stmt = t.map .ok ∧ t.Becomes label? close n := by
  cases stmt with
  | node m =>
    cases h
    exact ⟨.node n, rfl, .node n⟩
  | goto name =>
    simp only [assemble] at h
    cases hl : label? name with
    | none =>
      rw [hl] at h
      cases h
    | some l =>
      rw [hl] at h
      cases h
      exact ⟨.goto name, rfl, .goto hl⟩
  | conditional links otherwise =>
    obtain ⟨links', hlinks, h⟩ := Except.andThen_ok.mp h
    obtain ⟨otherwise', hotherwise, h⟩ := Except.andThen_ok.mp h
    obtain ⟨zs, rfl, rfl⟩ := exists_of_mapM (g := fun z : Expr × Block => (z.1, .ok z.2))
      (k := fun z => (z.1, close z.2)) link_ok hlinks
    obtain ⟨z, rfl, rfl⟩ := exists_of_option_mapM (g := .ok) (k := close) (fun _ _ => closed_ok)
      hotherwise
    cases h
    exact ⟨.conditional zs z, rfl, .conditional zs z⟩
  | loop l body =>
    obtain ⟨B, rfl, h⟩ := Except.andThen_ok.mp h
    cases h
    exact ⟨.loop l B, rfl, .loop l B⟩
  | iteration iterator collection l body =>
    obtain ⟨B, rfl, h⟩ := Except.andThen_ok.mp h
    cases h
    exact ⟨.iteration iterator collection l B, rfl, .iteration iterator collection l B⟩
  | switch value groups default => exact assemble_switch_ok h
  | attempt body handlers cleanup => exact assemble_attempt_ok h
  | resource s producer body =>
    obtain ⟨B, rfl, h⟩ := Except.andThen_ok.mp h
    cases h
    exact ⟨.resource s producer B, rfl, .resource s producer B⟩

/-- A statement whose scopes are assembled is assembled to what it becomes with their blocks. -/
theorem Becomes.assemble_eq {t : Stmt Block} {n : Node} (h : t.Becomes label? close n) :
    (t.map .ok).assemble label? close = .ok n := by
  have closedAll : ∀ B : Option Block,
      (B.map .ok).mapM (fun x : Assembled Block => x >>= fun body => return close body) =
        .ok (B.map close) := by
    intro B
    refine option_mapM_map_eq (fun B => ?_) B
    rfl
  cases h with
  | node n => rfl
  | goto placed =>
    simp only [map, assemble, placed]
    rfl
  | conditional links otherwise =>
    refine Except.andThen_ok.mpr ⟨links.map fun l => (l.1, close l.2), ?_, ?_⟩
    · refine mapM_map_eq (fun l => ?_) links
      rfl
    · exact Except.andThen_ok.mpr ⟨otherwise.map close, closedAll otherwise, rfl⟩
  | loop l body => rfl
  | iteration iterator collection l body => rfl
  | soleDefault value fall body => rfl
  | @switch value groups default nonempty =>
    cases groups with
    | nil => exact absurd rfl nonempty
    | cons g groups =>
      refine Except.andThen_ok.mpr
        ⟨(g :: groups).map fun g => ⟨g.values, g.body.getD .empty⟩, ?_, ?_⟩
      · refine mapM_map_eq (fun g => ?_) (g :: groups)
        cases g.body <;> rfl
      · refine Except.andThen_ok.mpr ⟨default.map id, ?_, ?_⟩
        · refine option_mapM_map_eq (fun d => ?_) default
          rfl
        · rw [Option.map_id_fun]
          rfl
  | @attempt body handlers cleanup guarded =>
    rw [map, assemble_attempt]
    · refine Except.andThen_ok.mpr ⟨body, rfl, ?_⟩
      refine Except.andThen_ok.mpr
        ⟨handlers.map fun h => ⟨h.kind, h.binding, close h.body⟩, ?_, ?_⟩
      · refine mapM_map_eq (fun h => ?_) handlers
        rfl
      · exact Except.andThen_ok.mpr ⟨cleanup.map close, closedAll cleanup, rfl⟩
    · refine guarded.imp (fun h hnil => h (List.map_eq_nil_iff.mp hnil)) fun h hnone => ?_
      exact h (Option.map_eq_none_iff.mp hnone)
  | resource s producer body => rfl

end Stmt

/-! ## Places of labels -/

namespace Node

variable {l : LabelId}

theorem defines_of_mem_children {n c : Node} (hc : c ∈ n.children) (h : c.defines l = true) :
    n.defines l = true := by
  rw [defines_eq, List.any_eq_true.mpr ⟨c, hc, h⟩, Bool.or_true]

theorem defines_ofLinks (links : List (Expr × Node)) (otherwise : Node) :
    (ofLinks links otherwise).defines l =
      ((links.any fun link => link.2.defines l) || otherwise.defines l) := by
  induction links with
  | nil => rfl
  | cons link links ih =>
    show (link.2.defines l || (ofLinks links otherwise).defines l) = _
    rw [ih, List.any_cons, Bool.or_assoc]

theorem defines_ofLoop (loop : Loop) (body : Node) :
    (ofLoop loop body).defines l = body.defines l :=
  Bool.or_false _

theorem defines_withCleanup (s : Symbol) (producer : Expr) (body : Node)
    (h : body.defines l = true) : (withCleanup s producer body).defines l = true := by
  simp [withCleanup, defines, h]

theorem defines_ofIteration (iterator : Symbol) (collection : Expr) (walk : Node)
    (h : walk.defines l = true) : (ofIteration iterator collection walk).defines l = true := by
  unfold ofIteration
  dsimp only
  split
  · exact defines_withCleanup _ _ _ h
  · simp [defines, h]

end Node

namespace Block

theorem defines_collapse (B : Block) (l : LabelId) :
    B.collapse.defines l = B.nodes.any (·.defines l) := by
  obtain ⟨locals, nodes⟩ := B
  unfold collapse
  split
  next h =>
    cases h
    rfl
  next n h =>
    cases h
    exact (Bool.or_false _).symm
  next heq =>
    cases heq
    exact Node.definesAny_eq_any l _

theorem isEmpty_eq_false {B : Block} {l : LabelId} (h : B.collapse.defines l = true) :
    B.isEmpty = false := by
  obtain ⟨locals, nodes⟩ := B
  rw [defines_collapse] at h
  cases nodes with
  | nil => cases h
  | cons n nodes => rfl

theorem defines_cons_mark (l : Label) (B : Block) :
    (B.cons (.mark l)).collapse.defines l.id = true := by
  rw [defines_collapse]
  exact (Bool.or_eq_true _ _).mpr (.inl (beq_self_eq_true _))

theorem defines_cons_collapse {B : Block} {l : LabelId} (n : Node)
    (h : B.collapse.defines l = true) : (B.cons n).collapse.defines l = true := by
  rw [defines_collapse] at h ⊢
  exact (Bool.or_eq_true _ _).mpr (.inr h)

end Block

namespace Node

variable {l : LabelId} {value : Expr} {groups : List (Arm Block)} {default : Option (Label × Block)}

theorem defines_ofSwitch_of_group {g : Arm Block} (hg : g ∈ groups)
    (h : g.body.collapse.defines l = true) :
    (ofSwitch Block.collapse value groups default).defines l = true := by
  have harm : ∀ otherwise, (ofSwitch.arm Block.collapse otherwise g).body = g.body.collapse := by
    intro otherwise
    rw [ofSwitch.arm, if_neg (by rw [Block.isEmpty_eq_false h]; exact Bool.false_ne_true)]
  have hmem : ∀ otherwise,
      g.body.collapse ∈ (groups.map (ofSwitch.arm Block.collapse otherwise)).map Arm.body :=
    fun otherwise => harm otherwise ▸ List.mem_map_of_mem (List.mem_map_of_mem hg)
  cases default with
  | none => exact defines_of_mem_children (List.mem_append_left _ (hmem _)) h
  | some d => exact defines_of_mem_children (List.mem_append_left _ (hmem _)) h

theorem defines_ofSwitch_of_default {d : Label × Block} (h : d.2.collapse.defines l = true) :
    (ofSwitch Block.collapse value groups (some d)).defines l = true := by
  refine defines_of_mem_children (List.mem_append_right _ (List.mem_singleton_self _)) ?_
  split
  · exact Block.defines_cons_collapse _ h
  · exact h

end Node

namespace Stmt

variable {label? : String → Option Label} {l : LabelId}

/-- A label that is placed in a block of a statement is placed in what the statement becomes. -/
theorem Becomes.defines {t : Stmt Block} {n : Node} (h : t.Becomes label? Block.collapse n)
    {B : Block} (hB : B ∈ t.scopes) (hl : B.collapse.defines l = true) : n.defines l = true := by
  cases h with
  | node | goto => cases hB
  | conditional links otherwise =>
    rw [Node.defines_ofLinks, Bool.or_eq_true, List.any_eq_true]
    rcases List.mem_append.mp hB with hB | hB
    · obtain ⟨link, hlink, rfl⟩ := List.mem_map.mp hB
      exact .inl ⟨_, List.mem_map_of_mem hlink, hl⟩
    · obtain rfl := Option.mem_toList.mp hB
      exact .inr hl
  | loop loop body =>
    obtain rfl := List.mem_singleton.mp hB
    rwa [Node.defines_ofLoop]
  | iteration iterator collection loop body =>
    obtain rfl := List.mem_singleton.mp hB
    exact Node.defines_ofIteration _ _ _ ((Node.defines_ofLoop _ _).trans hl)
  | soleDefault value fall body =>
    obtain rfl := List.mem_singleton.mp hB
    exact hl
  | @switch value groups default nonempty =>
    rcases List.mem_append.mp hB with hB | hB
    · obtain ⟨g, hg, hbody⟩ := List.mem_filterMap.mp hB
      refine Node.defines_ofSwitch_of_group (g := ⟨g.values, g.body.getD .empty⟩)
        (List.mem_map_of_mem hg) ?_
      rw [hbody]
      exact hl
    · obtain ⟨d, rfl, rfl⟩ := Option.map_eq_some_iff.mp (Option.mem_toList.mp hB)
      exact Node.defines_ofSwitch_of_default hl
  | @attempt body handlers cleanup guarded =>
    refine Node.defines_of_mem_children (c := B.collapse) ?_ hl
    rcases List.mem_cons.mp hB with rfl | hB
    · exact List.mem_cons_self
    refine List.mem_cons_of_mem _ ?_
    rcases List.mem_append.mp hB with hB | hB
    · obtain ⟨h, hh, rfl⟩ := List.mem_map.mp hB
      exact List.mem_append_left _ (List.mem_map.mpr ⟨_, List.mem_map_of_mem hh, rfl⟩)
    · obtain rfl := Option.mem_toList.mp hB
      exact List.mem_append_right _ (List.mem_singleton_self _)
  | resource s producer body =>
    obtain rfl := List.mem_singleton.mp hB
    exact Node.defines_withCleanup _ _ _ hl

end Stmt

namespace Scope

variable {label? : String → Option Label} {close : Block → Node} {s : Scope} {B : Block}

theorem assemble_eq (s : Scope) :
    s.assemble label? close = (do
      let nodes ← (s.stmts.map (Stmt.map (assemble label? close))).mapM
        (Stmt.assemble label? close)
      return ⟨s.frame.locals, nodes⟩) := by
  cases s
  exact fold_mk _ _ _

/-- A scope is assembled to the block of its locals and of what its statements become. -/
theorem assemble_ok (h : s.assemble label? close = .ok B) :
    B.locals = s.frame.locals ∧
      List.Forall₂ (fun stmt n => ∃ t : Stmt Block,
        stmt.map (assemble label? close) = t.map .ok ∧ t.Becomes label? close n)
        s.stmts B.nodes := by
  rw [assemble_eq] at h
  obtain ⟨nodes, hnodes, h⟩ := Except.andThen_ok.mp h
  cases h
  refine ⟨rfl, (List.forall₂_map_left_iff.mp (forall₂_of_mapM hnodes)).imp ?_⟩
  exact fun stmt n hn => Stmt.assemble_ok hn

theorem assemble_of_forall₂ {nodes : List Node}
    (h : List.Forall₂ (fun stmt n =>
      (stmt.map (assemble label? close)).assemble label? close = .ok n) s.stmts nodes) :
    s.assemble label? close = .ok ⟨s.frame.locals, nodes⟩ := by
  rw [assemble_eq, mapM_of_forall₂ (List.forall₂_map_left_iff.mpr h)]
  rfl

/-- The scopes of a statement that became a node are assembled to its blocks. -/
theorem exists_of_map {stmt : Stmt Scope} {t : Stmt Block}
    (h : stmt.map (assemble label? close) = t.map .ok) {c : Scope} (hc : c ∈ stmt.scopes) :
    ∃ B ∈ t.scopes, c.assemble label? close = .ok B := by
  have hscopes : stmt.scopes.map (assemble label? close) = t.scopes.map .ok := by
    rw [← Stmt.scopes_map, ← Stmt.scopes_map, h]
  have hmem : c.assemble label? close ∈ t.scopes.map .ok := by
    rw [← hscopes]
    exact List.mem_map_of_mem hc
  obtain ⟨B, hB, heq⟩ := List.mem_map.mp hmem
  exact ⟨B, hB, heq.symm⟩

/-- A label that a statement of the scope, or of a scope in it, places is placed by the block. -/
theorem defines_of_assemble {outer : Chain} {t : Scope} {n : Node} {l : LabelId}
    (ht : Within s outer t) (hn : Stmt.node n ∈ t.stmts) (hl : n.defines l = true)
    (h : s.assemble label? Block.collapse = .ok B) : B.collapse.defines l = true := by
  induction s using induct generalizing outer B with
  | step s ih =>
    obtain ⟨-, hall⟩ := assemble_ok h
    rw [Block.defines_collapse, List.any_eq_true]
    rcases ht.cases_root with ⟨-, rfl⟩ | ⟨c, hc, inner, -, hin⟩
    · obtain ⟨m, hm, u, hu, hbecomes⟩ := exists_right_of_forall₂ hall hn
      cases hbecomes with
      | node m =>
        cases hu
        exact ⟨n, hm, hl⟩
      | _ => cases hu
    · obtain ⟨stmt, hstmt, hcs⟩ := mem_children.mp hc
      obtain ⟨m, hm, u, hu, hbecomes⟩ := exists_right_of_forall₂ hall hstmt
      obtain ⟨B', hB', hok⟩ := exists_of_map hu hcs
      exact ⟨m, hm, hbecomes.defines hB' (ih c hc hin hok)⟩

end Scope

end StructuredFlow
