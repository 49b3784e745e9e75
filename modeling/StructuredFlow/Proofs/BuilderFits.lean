import StructuredFlow.Proofs.BuilderShape
import StructuredFlow.Proofs.ScopeFits

/-
  The program of a builder fits at every time. What is around its outermost scope are the
  parameters, the return label and the labels that have been placed (`Builder.surroundings`). What
  an operation checks before it adds a statement or lets a construct grow is what the new parts
  need to fit (`Adds.fitsIn`, `Grows.fitsIn`), and edits only add to what the surroundings offer.
  So every builder that edits lead to is sound (`Built.sound`).
-/

namespace StructuredFlow

variable {Γ Γ' : Surroundings}

/-- The statement fits, together with the scopes in it. -/
def Stmt.FitsIn (Γ : Surroundings) (stmt : Stmt Scope) : Prop :=
  stmt.Checks Γ ∧ ∀ p ∈ stmt.inner Γ, p.2.Fits p.1

theorem Stmt.FitsIn.of_node {n : Node} (hn : n.Fits Γ) (hleaf : n.children = []) :
    (Stmt.node n : Stmt Scope).FitsIn Γ :=
  ⟨⟨hn, hleaf⟩, fun _ hp => absurd hp List.not_mem_nil⟩

theorem Stmt.FitsIn.mono {stmt : Stmt Scope} (h : stmt.FitsIn Γ) (hle : Γ ≤ Γ') :
    stmt.FitsIn Γ' := by
  refine ⟨h.1.mono hle, fun p hp => ?_⟩
  obtain ⟨q, hq, hqp, hle'⟩ := Stmt.inner_mono hle hp
  exact hqp ▸ (h.2 q hq).mono hle'

namespace Scope.Fits

variable {s : Scope}

theorem of_fitsIn (hframe : Γ.Admits s.frame)
    (h : ∀ stmt ∈ s.stmts, stmt.FitsIn (Γ.bind s.frame.locals)) : s.Fits Γ :=
  .intro hframe (fun stmt hs => (h stmt hs).1) (fun stmt hs => (h stmt hs).2)

theorem fitsIn (h : s.Fits Γ) {stmt : Stmt Scope} (hs : stmt ∈ s.stmts) :
    stmt.FitsIn (Γ.bind s.frame.locals) :=
  ⟨h.checks hs, fun _ hp => h.inner hs hp⟩

end Scope.Fits

namespace Builder

variable {F : Fragment → Prop} {b b' : Builder} {c : Chain}

/-! ## The changes of a scope -/

theorem fits_addLocal {s : Scope} (h : s.Fits Γ) (x : Symbol) : (addLocal x s).Fits Γ := by
  refine .of_fitsIn ⟨h.frame.implicit, h.frame.loop, h.frame.handler⟩ fun stmt hs => ?_
  have hle : Γ.bind s.frame.locals ≤ Γ.bind (s.frame.locals ++ [x]) :=
    Surroundings.bind_mono (Surroundings.le_refl Γ) (List.subset_append_left _ _)
  exact (h.fitsIn hs).mono hle

theorem fits_addImplicit {s : Scope} (h : s.Fits Γ) {x : Symbol} (hx : Γ.bound x.id) :
    (addImplicit x s).Fits Γ := by
  refine .of_fitsIn ⟨fun y hy => ?_, h.frame.loop, h.frame.handler⟩ fun stmt hs => h.fitsIn hs
  rcases List.mem_append.mp hy with hy | hy
  · exact h.frame.implicit y hy
  · obtain rfl := List.mem_singleton.mp hy
    exact hx

theorem fits_addStmts {s : Scope} {stmts : List (Stmt Scope)} (h : s.Fits Γ)
    (hstmts : ∀ stmt ∈ stmts, stmt.FitsIn (Γ.bind s.frame.locals)) :
    (addStmts stmts s).Fits Γ := by
  refine .of_fitsIn h.frame fun stmt hs => ?_
  rcases List.mem_append.mp hs with hs | hs
  · exact h.fitsIn hs
  · exact hstmts stmt hs

theorem fits_setStmt {s : Scope} {stmt : Stmt Scope} (h : s.Fits Γ) (index : Nat)
    (hstmt : stmt.FitsIn (Γ.bind s.frame.locals)) : (setStmt index stmt s).Fits Γ := by
  refine .of_fitsIn h.frame fun t ht => ?_
  rcases List.mem_or_eq_of_mem_set ht with ht | rfl
  · exact h.fitsIn ht
  · exact hstmt

/-! ## New scopes -/

theorem fits_newScope (b : Builder) (Γ : Surroundings) : (b.newScope .plain).Fits Γ :=
  .of_frame ⟨fun _ hx => absurd hx List.not_mem_nil, nofun, nofun⟩
    rfl

/-- The labels of the next loop are not the one that the program returns to, if that has a number
already. -/
theorem newLoop_ne (hexit : Γ.exit.id < b.labelCount) (test : Expr) :
    (b.newLoop test).leave.id ≠ Γ.exit.id ∧ (b.newLoop test).next.id ≠ Γ.exit.id :=
  ⟨(Nat.lt_succ_of_lt hexit).ne', hexit.ne'⟩

theorem fits_newBody (hexit : Γ.exit.id < b.labelCount) (test : Expr) :
    b.newBody.Fits (Γ.around (b.newLoop test).leave (b.newLoop test).next) := by
  obtain ⟨hleave, hnext⟩ := newLoop_ne hexit test
  refine .of_frame ⟨fun _ hx => absurd hx List.not_mem_nil, fun leave next hr => ?_, nofun⟩ rfl
  cases hr
  exact ⟨⟨.inr (.inl rfl), hleave⟩, ⟨.inr (.inr rfl), hnext⟩⟩

theorem fits_newScopeWith (b : Builder) {name : String} {ty : Ty}
    (hx : Γ.bound (b.newSymbol 0 name ty).id) : (b.newScopeWith .plain name ty).Fits Γ :=
  fits_addImplicit (b.fits_newScope Γ) hx

theorem fits_handler (b : Builder) (hΓ : Γ.handling) : (b.newScope .catchBody).Fits Γ :=
  .of_frame ⟨fun _ hx => absurd hx List.not_mem_nil, nofun, fun _ => hΓ⟩ rfl

theorem vars_currentOf (iterator : Symbol) (element ty : Ty) :
    (currentOf iterator element ty).vars = [iterator] := by
  unfold currentOf
  dsimp only
  split <;> rfl

theorem placeholders_currentOf (iterator : Symbol) (element ty : Ty) :
    (currentOf iterator element ty).placeholders = [] := by
  unfold currentOf
  dsimp only
  split <;> rfl

theorem reads_currentOf {iterator : Symbol} (hx : Γ.bound iterator.id) (element ty : Ty) :
    Γ.Reads (currentOf iterator element ty) := by
  refine ⟨placeholders_currentOf _ _ _, fun s hs => .inr ?_⟩
  rw [vars_currentOf] at hs
  obtain rfl := List.mem_singleton.mp hs
  exact hx

theorem fits_newIterationBody (hexit : Γ.exit.id < b.labelCount) {iteratorType : Ty} (name : String)
    (element ty : Ty) (test : Expr) (hx : Γ.bound (b.newIterator iteratorType).id) :
    (b.newIterationBody name iteratorType element ty).Fits
      (Γ.around (b.newLoop test).leave (b.newLoop test).next) := by
  refine fits_addStmts (fits_addLocal (fits_newBody hexit test) (b.newSymbol 1 name ty)) ?_
  refine List.forall_mem_singleton.mpr (.of_node (.assign (.inr ⟨_, ?_, rfl⟩) ?_) rfl)
  · exact List.mem_singleton_self (b.newSymbol 1 name ty)
  · exact reads_currentOf (Or.inl hx) element ty

/-! ## Statements of operations -/

/-- A node that does nothing but evaluate a settled value fits. -/
theorem fits_of_value (hΓ : Γ.Covers b.options.allowCaptures c) {e : Expr} {n : Node}
    (he : b.Settles F c e) (hreads : n.reads = [e]) (hparts : n.parts = [])
    (hhandlers : n.handlers = []) (hgoto : ∀ l value, n ≠ .goto l value) (hrethrow : n ≠ .rethrow)
    (hassign : ∀ s e, n ≠ .assign s e) : n.Fits Γ := by
  refine .of_reads ?_ hparts hhandlers hgoto hrethrow hassign
  rw [hreads]
  exact List.forall_mem_singleton.mpr (hΓ.reads he.closed)

/-- The statements that an operation adds fit where it adds them, if jumps to the labels that they
place are taken there. -/
theorem Adds.fitsIn {stmts : List (Stmt Scope)} (h : b.Adds F c stmts b')
    (hΓ : Γ.Covers b.options.allowCaptures c) (hexit : Γ.exit = b.returnLabel)
    (hcount : b.returnLabel.id < b.labelCount) (hreturn : Γ.targets b.returnLabel.id)
    (hmarks : ∀ t ∈ stmts.flatMap Stmt.scopes, ∀ l, t.Marks l → Γ.targets l) :
    ∀ stmt ∈ stmts, stmt.FitsIn Γ := by
  have single : ∀ {n : Node}, n.Fits Γ → n.children = [] →
      ∀ stmt ∈ [(.node n : Stmt Scope)], stmt.FitsIn Γ :=
    fun hn hleaf => List.forall_mem_singleton.mpr (.of_node hn hleaf)
  have hfresh : Γ.exit.id < b.labelCount := hexit ▸ hcount
  cases h with
  | assign visible settled suits =>
    have htarget := hΓ.bound_of_isVisible (Chain.isVisible_of_lookup visible)
    exact single (.assign htarget (hΓ.reads settled.closed)) rfl
  | act settled =>
    exact single (fits_of_value hΓ settled rfl rfl rfl nofun nofun nofun) rfl
  | jump loop jump =>
    have htargets := hΓ.of_loopLabels? loop
    refine single (.goto ?_ nofun) rfl
    cases jump with
    | leave => exact htargets.1.takes none
    | next => exact htargets.2.takes none
  | returnValue settled suits =>
    refine single (.goto ⟨hreturn, nofun⟩ fun e he => ?_) rfl
    cases he
    exact hΓ.reads settled.closed
  | returnVoid void => exact single (.goto ⟨hreturn, fun _ _ => hexit ▸ void⟩ nofun) rfl
  | goto name => exact List.forall_mem_singleton.mpr ⟨trivial, nofun⟩
  | label new => exact single (.label _ none) rfl
  | throw settled reference =>
    exact single (fits_of_value hΓ settled rfl rfl rfl nofun nofun nofun) rfl
  | rethrow handler =>
    refine single (.leaf ⟨nofun, nofun, fun _ => ?_, nofun⟩ rfl rfl) rfl
    exact hΓ.of_inCatch handler
  | conditional settled suits =>
    refine List.forall_mem_singleton.mpr ⟨?_, ?_⟩
    · exact List.forall_mem_singleton.mpr (hΓ.reads settled.closed)
    · exact List.forall_mem_singleton.mpr (b.fits_newScope Γ)
  | whileLoop settled suits =>
    refine List.forall_mem_singleton.mpr ⟨⟨hΓ.reads settled.closed, (newLoop_ne hfresh _).1⟩, ?_⟩
    exact List.forall_mem_singleton.mpr (fits_newBody hfresh _)
  | @doWhile test settled suits =>
    have hentry : Γ.Leads b.newEntry.id := by
      refine ⟨?_, (Nat.lt_add_right 2 hfresh).ne'⟩
      refine hmarks (b.newBody.push (.node (.label b.newEntry none))) ?_ b.newEntry.id ?_
      · exact List.mem_singleton_self _
      · exact ⟨[], _, .here, .label b.newEntry none, List.mem_singleton_self _, beq_self_eq_true _⟩
    refine List.forall_mem_cons.mpr ⟨.of_node (.goto (hentry.takes none) nofun) rfl, ?_⟩
    refine List.forall_mem_singleton.mpr ⟨⟨hΓ.reads settled.closed, (newLoop_ne hfresh _).1⟩, ?_⟩
    refine List.forall_mem_singleton.mpr (fits_addStmts (fits_newBody hfresh test) ?_)
    exact List.forall_mem_singleton.mpr (.of_node (.label b.newEntry none) rfl)
  | @iteration collection name iteratorType element ty settled iterable yields converts new =>
    have hiterator : (Γ.bind [b.newIterator iteratorType]).bound (b.newIterator iteratorType).id :=
      .inr ⟨_, List.mem_singleton_self _, rfl⟩
    have hbody : (Γ.bind [b.newIterator iteratorType]).exit.id < b.labelCount := hfresh
    refine List.forall_mem_singleton.mpr ⟨⟨hΓ.reads settled.closed, ⟨rfl, ?_⟩, ?_⟩, ?_⟩
    · exact List.forall_mem_singleton.mpr (.inr hiterator)
    · exact (newLoop_ne hfresh _).1
    · exact List.forall_mem_singleton.mpr (fits_newIterationBody hbody name element ty _ hiterator)
  | switch settled =>
    exact List.forall_mem_singleton.mpr ⟨⟨hΓ.reads settled.closed, nofun, nofun⟩, nofun⟩
  | attempt =>
    refine List.forall_mem_singleton.mpr ⟨trivial, ?_⟩
    exact List.forall_mem_singleton.mpr (b.fits_newScope Γ)
  | resource settled suits new =>
    refine List.forall_mem_singleton.mpr ⟨hΓ.reads settled.closed, ?_⟩
    refine List.forall_mem_singleton.mpr (b.fits_newScopeWith ?_)
    exact .inr ⟨_, List.mem_singleton_self _, rfl⟩

/-- Beside scopes that stand in the same surroundings a new one fits. -/
theorem fits_beside (b : Builder) {scopes : List Scope}
    (h : ∀ p ∈ scopes.map (Prod.mk Γ), p.2.Fits p.1) {scopes' : List Scope}
    (hnew : ∀ s ∈ scopes', s ∈ scopes ∨ s = b.newScope .plain) :
    ∀ p ∈ scopes'.map (Prod.mk Γ), p.2.Fits p.1 := by
  intro p hp
  obtain ⟨s, hs, rfl⟩ := List.mem_map.mp hp
  rcases hnew s hs with hs | rfl
  · exact h (Γ, s) (List.mem_map_of_mem hs)
  · exact b.fits_newScope Γ

/-- A construct with a handler more fits if the handler's body does. -/
theorem fitsIn_handler {body : Scope} {handlers : List (Handler Scope)} {cleanup : Option Scope}
    {h : Handler Scope} (hold : (Stmt.attempt body handlers cleanup).FitsIn Γ)
    (hh : h.body.Fits (Γ.inHandler h.binding)) :
    (Stmt.attempt body (handlers ++ [h]) cleanup).FitsIn Γ := by
  refine ⟨trivial, fun p hp => ?_⟩
  rcases List.mem_cons.mp hp with rfl | hp
  · exact hold.2 _ List.mem_cons_self
  rcases List.mem_append.mp hp with hp | hp
  · rw [List.map_append] at hp
    rcases List.mem_append.mp hp with hp | hp
    · exact hold.2 p (List.mem_cons_of_mem _ (List.mem_append_left _ hp))
    · obtain rfl := List.mem_singleton.mp hp
      exact hh
  · exact hold.2 p (List.mem_cons_of_mem _ (List.mem_append_right _ hp))

/-- What a construct has become fits where the construct fits. -/
theorem Grows.fitsIn {old new : Stmt Scope} (h : b.Grows F c old new b')
    (hΓ : Γ.Covers b.options.allowCaptures c) (hfresh : Γ.exit.id < b.labelCount)
    (hold : old.FitsIn Γ) : new.FitsIn Γ := by
  obtain ⟨hchecks, hinner⟩ := hold
  cases h with
  | @otherwise links =>
    refine ⟨hchecks, b.fits_beside hinner fun s hs => ?_⟩
    exact (List.mem_append.mp hs).imp (List.mem_append_left _) List.mem_singleton.mp
  | @link links test settled suits =>
    refine ⟨fun l hl => ?_, b.fits_beside hinner fun s hs => ?_⟩
    · rcases List.mem_append.mp hl with hl | hl
      · exact hchecks l hl
      · obtain rfl := List.mem_singleton.mp hl
        exact hΓ.reads settled.closed
    · rw [List.map_append, Option.toList_none, List.append_nil] at hs
      exact (List.mem_append.mp hs).imp (List.mem_append_left _) List.mem_singleton.mp
  | @group discriminant groups default value settled suits =>
    refine ⟨⟨hchecks.1, fun g hg e he => ?_, hchecks.2.2⟩, fun p hp => hinner p ?_⟩
    · rcases List.mem_append.mp hg with hg | hg
      · exact hchecks.2.1 g hg e he
      · obtain rfl := List.mem_singleton.mp hg
        obtain rfl := List.mem_singleton.mp he
        exact hΓ.reads settled.closed
    · have hbodies : (groups ++ [(⟨[value], none⟩ : Arm (Option Scope))]).filterMap Arm.body =
          groups.filterMap Arm.body := by
        rw [List.filterMap_append]
        exact List.append_nil _
      rwa [Stmt.inner, hbodies] at hp
  | @widen discriminant groups default value group settled suits =>
    refine ⟨⟨hchecks.1, fun g hg e he => ?_, hchecks.2.2⟩, fun p hp => hinner p ?_⟩
    · obtain ⟨k, hk⟩ := List.mem_iff_getElem?.mp hg
      rw [List.getElem?_modify] at hk
      obtain ⟨g', hg', rfl⟩ := Option.map_eq_some_iff.mp hk
      have hmem : g' ∈ groups := List.mem_of_getElem? hg'
      split at he
      · rcases List.mem_append.mp he with he | he
        · exact hchecks.2.1 g' hmem e he
        · obtain rfl := List.mem_singleton.mp he
          exact hΓ.reads settled.closed
      · exact hchecks.2.1 g' hmem e he
    · rwa [Stmt.inner, filterMap_body_modify] at hp
  | @groupBody discriminant groups default values group place =>
    refine ⟨⟨hchecks.1, fun g hg e he => ?_, hchecks.2.2⟩, b.fits_beside hinner fun s hs => ?_⟩
    · rcases List.mem_or_eq_of_mem_set hg with hg | rfl
      · exact hchecks.2.1 g hg e he
      · exact hchecks.2.1 _ (List.mem_of_getElem? place) e he
    · have hs := (((filterMap_body_set _ place).append_right _).mem_iff).mp hs
      rcases List.mem_append.mp hs with hs | hs
      · exact (List.mem_append.mp hs).imp (List.mem_append_left _) List.mem_singleton.mp
      · exact .inl (List.mem_append_right _ hs)
  | default =>
    refine ⟨⟨hchecks.1, hchecks.2.1, fun fall hfall => ?_⟩, b.fits_beside hinner fun s hs => ?_⟩
    · obtain rfl := Option.some.inj hfall
      exact hfresh.ne'
    · exact (List.mem_append.mp hs).imp (List.mem_append_left _) List.mem_singleton.mp
  | @handler body handlers cleanup kind reference =>
    exact fitsIn_handler ⟨hchecks, hinner⟩ (b.fits_handler trivial)
  | @handlerWith body handlers cleanup kind name reference new =>
    refine fitsIn_handler ⟨hchecks, hinner⟩ (fits_addImplicit (b.fits_handler trivial) ?_)
    exact .inr ⟨_, List.mem_singleton_self _, rfl⟩
  | cleanup =>
    refine ⟨trivial, fun p hp => ?_⟩
    rcases List.mem_cons.mp hp with rfl | hp
    · exact hinner _ List.mem_cons_self
    rcases List.mem_append.mp hp with hp | hp
    · exact hinner p (List.mem_cons_of_mem _ (List.mem_append_left _ hp))
    · obtain rfl := List.mem_singleton.mp hp
      exact b.fits_newScope Γ

/-! ## The whole program -/

/-- What is around the outermost scope: the parameters have values, and jumps are taken to the
return label and to every label that has been placed. -/
def surroundings (b : Builder) : Surroundings where
  captures := b.options.allowCaptures = true
  exit := b.returnLabel
  bound id := ∃ x ∈ b.params, x.id = id
  targets l := l = b.returnLabel.id ∨ b.top.Marks l
  handling := False

/-- The program fits, each label is in its place under its name, and none of these or of the
labels that are still to come is the return label. -/
structure Sound (b : Builder) : Prop where
  fits : b.top.Fits b.surroundings
  labels : ∀ l ∈ b.labels, b.top.Marks l.id ∧ l.id ≠ b.returnLabel.id
  count : b.returnLabel.id < b.labelCount

/-- What operations leave alone. -/
structure Alike (b b' : Builder) : Prop where
  options : b'.options = b.options
  params : b'.params = b.params
  returnLabel : b'.returnLabel = b.returnLabel
  labelCount : b.labelCount ≤ b'.labelCount

theorem Adds.alike {stmts : List (Stmt Scope)} (h : b.Adds F c stmts b') : b.Alike b' := by
  cases h <;> first
    | exact ⟨rfl, rfl, rfl, Nat.le_refl _⟩
    | exact ⟨rfl, rfl, rfl, Nat.le_add_right _ _⟩

theorem Grows.alike {old new : Stmt Scope} (h : b.Grows F c old new b') : b.Alike b' := by
  cases h <;> first
    | exact ⟨rfl, rfl, rfl, Nat.le_refl _⟩
    | exact ⟨rfl, rfl, rfl, Nat.le_add_right _ _⟩

/-- A label is an old one, or it has the next number and is in its place now. -/
theorem Adds.labels {stmts : List (Stmt Scope)} (h : b.Adds F c stmts b') {l : Label}
    (hl : l ∈ b'.labels) :
    l ∈ b.labels ∨ l.id = b.labelCount ∧ ∃ n, Stmt.node n ∈ stmts ∧ n.marks l.id = true := by
  cases h with
  | label new =>
    rcases List.mem_append.mp hl with hl | hl
    · exact .inl hl
    · obtain rfl := List.mem_singleton.mp hl
      exact .inr ⟨rfl, _, List.mem_singleton_self _, beq_self_eq_true _⟩
  | _ => exact .inl hl

theorem Grows.labels {old new : Stmt Scope} (h : b.Grows F c old new b') : b'.labels = b.labels := by
  cases h <;> rfl

/-- Only constructs grow. -/
theorem Grows.ne_node {old new : Stmt Scope} (h : b.Grows F c old new b') (n : Node) :
    old ≠ .node n := by
  cases h <;> exact nofun

/-- A construct that grows leaves the nodes beside it in place. -/
theorem Grows.keeps_node {old new : Stmt Scope} (h : b.Grows F c old new b') {s : Scope}
    {index : Nat} (standing : s.stmts[index]? = some old) {n : Node}
    (hn : Stmt.node n ∈ s.stmts) : Stmt.node n ∈ (setStmt index new s).stmts := by
  obtain ⟨k, hk⟩ := List.mem_iff_getElem?.mp hn
  have hne : index ≠ k := by
    rintro rfl
    exact h.ne_node n (Option.some.inj (standing.symm.trans hk))
  refine List.mem_of_getElem? (i := k) ?_
  rw [setStmt, List.getElem?_set_ne hne, hk]

/-- With the marks kept, there is as much around the program as before. -/
theorem surroundings_le (hoptions : b'.options = b.options) (hparams : b.params ⊆ b'.params)
    (hreturn : b'.returnLabel = b.returnLabel) (hmarks : ∀ l, b.top.Marks l → b'.top.Marks l) :
    b.surroundings ≤ b'.surroundings where
  captures hc := by
    show b'.options.allowCaptures = true
    rw [hoptions]
    exact hc
  exit := hreturn
  bound id hid := hid.imp fun x hx => ⟨hparams hx.1, hx.2⟩
  targets l hl := by
    show l = b'.returnLabel.id ∨ b'.top.Marks l
    rw [hreturn]
    exact hl.imp_right (hmarks l)
  handling := id

/-- A change of one scope keeps a program sound, if it leaves the nodes and the scopes there in
place, the changed scope fits, and each new label is in its place there. -/
theorem Sound.change {outer : Chain} {s : Scope} {f : Scope → Scope} (hb : b.Sound)
    (hdistinct : b.top.Distinct) (place : b.top.Within outer s)
    (htop : b'.top = b.top.update s.frame.id f) (hoptions : b'.options = b.options)
    (hparams : b.params ⊆ b'.params) (hreturn : b'.returnLabel = b.returnLabel)
    (hcount : b.labelCount ≤ b'.labelCount) (hkeep : ∀ c ∈ s.children, c ∈ (f s).children)
    (hnodes : ∀ n, Stmt.node n ∈ s.stmts → Stmt.node n ∈ (f s).stmts)
    (hlabels : ∀ l ∈ b'.labels, l ∈ b.labels ∨
      l.id = b.labelCount ∧ ∃ n, Stmt.node n ∈ (f s).stmts ∧ n.marks l.id = true)
    (hfits : ∀ Γ, b'.surroundings ≤ Γ → s.Fits Γ →
      (Γ.bind s.frame.locals).Covers b.options.allowCaptures (s.frame :: outer) → (f s).Fits Γ) :
    b'.Sound := by
  have hmarks : ∀ l, b.top.Marks l → b'.top.Marks l := by
    intro l hl
    rw [htop]
    exact hl.update hdistinct place hkeep hnodes
  have hle := surroundings_le hoptions hparams hreturn hmarks
  constructor
  · rw [htop]
    have hcover : b'.surroundings.Covers b.options.allowCaptures [] :=
      ⟨hle.captures, nofun, nofun, nofun⟩
    refine Scope.Fits.update hdistinct (hb.fits.mono hle) hcover ?_
    intro Γ outer' s' hs' hid hs hΓ hc
    obtain ⟨rfl, rfl⟩ := hs'.unique hdistinct place hid
    rw [List.append_nil] at hc
    exact hfits Γ hΓ hs (hc.cons hs.frame)
  · intro l hl
    rw [hreturn]
    rcases hlabels l hl with hl | ⟨hid, n, hn, hnl⟩
    · exact (hb.labels l hl).imp_left (hmarks _)
    · rw [htop]
      refine ⟨⟨outer, f s, place.update_self hdistinct rfl hkeep, n, hn, hnl⟩, ?_⟩
      exact hid ▸ hb.count.ne'
  · rw [hreturn]
    exact Nat.lt_of_lt_of_le hb.count hcount

/-- What the scopes of added statements mark, the whole tree does. -/
theorem marks_of_added {outer : Chain} {s t : Scope} {stmts : List (Stmt Scope)}
    (hdistinct : b.top.Distinct) (place : b.top.Within outer s)
    (ht : t ∈ stmts.flatMap Stmt.scopes) {l : LabelId} (hl : t.Marks l) :
    (b.top.update s.frame.id (addStmts stmts)).Marks l := by
  have hmem : t ∈ (addStmts stmts s).children := by
    rw [addStmts_children]
    exact List.mem_append_right _ ht
  have hs := place.update_self hdistinct rfl (children_addStmts stmts s)
  exact (hl.of_within (.inside .here hmem)).of_within hs

theorem sound_empty (options : Options) (returnType : Ty) :
    (Builder.empty options returnType).Sound where
  fits := .of_frame ⟨fun _ hx => absurd hx List.not_mem_nil, nofun, nofun⟩ rfl
  labels _ hl := absurd hl List.not_mem_nil
  count := Nat.zero_lt_one

theorem Edit.sound (h : b.Edit F b') (hb : b.Sound) (hdistinct : b.top.Distinct) : b'.Sound := by
  cases h with
  | @param name ty new newInside =>
    refine hb.change hdistinct .here rfl rfl (List.subset_append_left _ _) rfl (Nat.le_refl _)
      (fun _ hc => hc) (fun _ hn => hn) (fun _ => .inl) fun Γ hΓ hs _ => fits_addImplicit hs ?_
    exact hΓ.bound _ ⟨_, List.mem_append_right _ (List.mem_singleton_self _), rfl⟩
  | @declare outer s name ty place new newInside =>
    exact hb.change hdistinct place rfl rfl (fun _ hx => hx) rfl (Nat.le_refl _)
      (fun _ hc => hc) (fun _ hn => hn) (fun _ => .inl) fun Γ _ hs _ => fits_addLocal hs _
  | @add outer s stmts b₁ place adds =>
    obtain ⟨hoptions, hparams, hreturn, hcount⟩ := adds.alike
    have htop : (b₁.changing s.frame.id (addStmts stmts)).top =
        b.top.update s.frame.id (addStmts stmts) := by rw [changing, adds.top_eq]
    have hkeep := children_addStmts stmts s
    refine hb.change hdistinct place htop hoptions (fun x hx => hparams ▸ hx) hreturn hcount
      hkeep (fun n hn => List.mem_append_left _ hn) (fun l hl => ?_) fun Γ hΓ hs hc => ?_
    · refine (adds.labels hl).imp_right (And.imp_right fun hn => ?_)
      exact hn.imp fun n hn => ⟨List.mem_append_right _ hn.1, hn.2⟩
    · have hexit : Γ.exit = b.returnLabel := hΓ.exit.trans hreturn
      refine fits_addStmts hs (adds.fitsIn hc hexit hb.count ?_ fun t ht l hl => ?_)
      · exact hΓ.targets _ (.inl (congrArg Label.id hreturn.symm))
      · refine hΓ.targets l (.inr ?_)
        rw [htop]
        exact marks_of_added hdistinct place ht hl
  | @grow outer s index old new b₁ place standing grows =>
    obtain ⟨hoptions, hparams, hreturn, hcount⟩ := grows.alike
    have htop : (b₁.changing s.frame.id (setStmt index new)).top =
        b.top.update s.frame.id (setStmt index new) := by rw [changing, grows.top_eq]
    refine hb.change hdistinct place htop hoptions (fun x hx => hparams ▸ hx) hreturn hcount
      (grows.keeps_children standing) (fun n => grows.keeps_node standing) (fun l hl => .inl ?_)
      fun Γ hΓ hs hc => ?_
    · exact grows.labels ▸ hl
    · have hexit : Γ.exit = b.returnLabel := hΓ.exit.trans hreturn
      have hfresh : Γ.exit.id < b.labelCount := hexit ▸ hb.count
      have hold := hs.fitsIn (List.mem_of_getElem? standing)
      exact fits_setStmt hs index (grows.fitsIn hc hfresh hold)

theorem Built.sound (h : Built F b) : b.Sound := by
  induction h with
  | empty options returnType => exact sound_empty options returnType
  | edit built edit ih => exact edit.sound ih built.numbered.distinct

end Builder

end StructuredFlow
