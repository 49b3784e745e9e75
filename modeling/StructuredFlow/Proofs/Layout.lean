import StructuredFlow.Proofs.CollapseTransparent
import StructuredFlow.Proofs.Rows

/-
  The layout of a program. The plan of a builder describes the body that the builder is assembled
  to, node by node (`Builder.Built.plan_describes`): each node is what its purpose prescribes, and
  what every statement that it stands for becomes.
-/

namespace StructuredFlow

namespace Stmt

variable {σ : Type}

/-- The loop of a statement. -/
def loop? : Stmt σ → Option Loop
  | loop l _ | iteration _ _ l _ => some l
  | _ => none

/-- The variable that a statement has for itself, and what is assigned to it. -/
def held? : Stmt σ → Option (Symbol × Expr)
  | iteration iterator collection _ _ => some (iterator, .intrinsic .getIterator [collection])
  | resource s producer _ => some (s, producer)
  | _ => none

/-- There is a node for the whole statement. A conditional has one for each test, and a switch
without groups is what its default becomes. -/
def hasRoot : Stmt σ → Bool
  | conditional _ _ => false
  | switch _ [] (some _) => false
  | _ => true

theorem hasRoot_switch {value : Expr} {groups : List (Arm (Option σ))}
    {default : Option (Label × σ)} (h : groups ≠ []) :
    (switch value groups default).hasRoot = true := by
  cases groups with
  | nil => exact absurd rfl h
  | cons => rfl

/-- The variable that a statement disposes of. -/
def released? : Stmt σ → Option Symbol
  | iteration iterator _ _ _ => if iterator.ty.isDisposable then some iterator else none
  | resource s _ _ => some s
  | _ => none

end Stmt

/-- There is nothing in the scope. -/
def Scope.isVacant (s : Scope) : Bool :=
  s.stmts.isEmpty && s.frame.locals.isEmpty

namespace Builder

/-- The statement becomes the node. -/
def Makes (b : Builder) (stmt : Stmt Scope) (n : Node) : Prop :=
  (stmt.map (Scope.block b.label? Block.collapse)).Becomes b.label? Block.collapse n

/-- The node is what a part of a statement has to be. -/
inductive Prescribes (b : Builder) : Stmt Scope → Part → Node → Prop
  | root {stmt n} (whole : stmt.hasRoot = true) (makes : b.Makes stmt n) :
      Prescribes b stmt .root n
  | link {links otherwise k test c yes no} (place : links[k]? = some (test, c)) :
      Prescribes b (.conditional links otherwise) (.link k) (.branch test yes no)
  | absent {links} : Prescribes b (.conditional links none) .absent .nop
  | walk {iterator collection l c body} :
      Prescribes b (.iteration iterator collection l c) .walk (.loop body l.leave l.next)
  | test {stmt l yes no} (loop : stmt.loop? = some l) :
      Prescribes b stmt .test (.branch l.condition yes no)
  | exit {stmt l} (loop : stmt.loop? = some l) : Prescribes b stmt .exit (.jump l.leave)
  | acquire {stmt s producer} (held : stmt.held? = some (s, producer)) :
      Prescribes b stmt .acquire (.assign s producer)
  | guard {stmt s body} (released : stmt.released? = some s) :
      Prescribes b stmt .guard (.attempt body [] (some (.disposal s)))
  | release {stmt s} (released : stmt.released? = some s) :
      Prescribes b stmt .release (.disposal s)
  | call {stmt s} (released : stmt.released? = some s) (reference : s.ty.isReference = true) :
      Prescribes b stmt .call (.eval (.intrinsic .dispose [.var s]))
  | spare {stmt s} (released : stmt.released? = some s) (reference : s.ty.isReference = true) :
      Prescribes b stmt .spare .nop
  | group {value groups k g} (place : groups[k]? = some g)
      (vacant : g.body.all Scope.isVacant = true) :
      Prescribes b (.switch value groups none) (.group k) .nop
  | falls {value groups fall c k g} (place : groups[k]? = some g)
      (vacant : g.body.all Scope.isVacant = true) :
      Prescribes b (.switch value groups (some (fall, c))) (.group k) (.jump fall)
  | fall {value groups fall c g} (place : g ∈ groups)
      (vacant : g.body.all Scope.isVacant = true) :
      Prescribes b (.switch value groups (some (fall, c))) .fall (.mark fall)

/-- The node is what it has to be for its purpose. -/
def Plays (b : Builder) : Purpose → Node → Prop
  | .part site part, n => ∃ stmt, b.at? site = some stmt ∧ b.Prescribes stmt part n
  | .block id, n => ∃ s nodes, b.top.find? id = some s ∧ n = .block s.frame.locals nodes
  | .empty id, n => ∃ s, b.top.find? id = some s ∧ s.isVacant = true ∧ n = .nop
  | .body, n => ∃ top, n = .block [] [top, .label b.returnLabel (Constant.zero? b.returnType)]
  | .returning, n => n = .label b.returnLabel (Constant.zero? b.returnType)

end Builder

/-- The plan has the shape of the tree: each node is what its purpose asks for, and what the
statements become that it stands for. -/
inductive Plan.Describes (b : Builder) : Plan → Node → Prop
  | node {purpose sites parts n} (plays : b.Plays purpose n)
      (stands : ∀ site ∈ sites, ∃ stmt, b.at? site = some stmt ∧ b.Makes stmt n)
      (below : List.Forall₂ (Describes b) parts n.children) :
      Describes b (.node purpose sites parts) n

namespace Plan

variable {b : Builder} {p q : Plan} {n : Node} {site : Site} {stmt : Stmt Scope} {s : Symbol}
  {producer : Expr}

theorem Describes.standing (h : p.Describes b n) (hat : b.at? site = some stmt)
    (hmakes : b.Makes stmt n) : (p.standing site).Describes b n := by
  cases h with
  | node plays stands below =>
    exact .node plays (List.forall_mem_cons.mpr ⟨⟨stmt, hat, hmakes⟩, stands⟩) below

theorem describes_part {part : Part} {parts : List Plan} (hat : b.at? site = some stmt)
    (h : b.Prescribes stmt part n) (hparts : List.Forall₂ (Describes b) parts n.children) :
    (node (.part site part) [] parts).Describes b n :=
  .node ⟨stmt, hat, h⟩ nofun hparts

theorem describes_ofLoop {l : Loop} {whole : Part} (hat : b.at? site = some stmt)
    (hloop : stmt.loop? = some l) (hwhole : b.Prescribes stmt whole (.ofLoop l n))
    (h : p.Describes b n) : (ofLoop site whole p).Describes b (.ofLoop l n) := by
  have hexit : (leaf (.part site .exit)).Describes b (.jump l.leave) :=
    describes_part hat (.exit hloop) .nil
  have htest := describes_part (n := .branch l.condition n (.jump l.leave)) hat (.test hloop)
    (.cons h (.cons hexit .nil))
  exact describes_part hat hwhole (.cons htest .nil)

theorem describes_ofDisposal (hat : b.at? site = some stmt) (hs : stmt.released? = some s) :
    (ofDisposal site s).Describes b (.disposal s) := by
  unfold ofDisposal
  split
  next hreference =>
    refine describes_part hat (.release hs) ?_
    rw [Node.disposal, if_pos hreference]
    exact .cons (describes_part hat (.call hs hreference) .nil)
      (.cons (describes_part hat (.spare hs hreference) .nil) .nil)
  next hreference =>
    refine describes_part hat (.release hs) ?_
    rw [Node.disposal, if_neg hreference]
    exact .nil

theorem describes_withCleanup (hat : b.at? site = some stmt)
    (hheld : stmt.held? = some (s, producer)) (hs : stmt.released? = some s)
    (hroot : b.Prescribes stmt .root (.withCleanup s producer n)) (h : p.Describes b n) :
    (withCleanup site s p).Describes b (.withCleanup s producer n) := by
  have hguard := describes_part (n := .attempt n [] (some (.disposal s))) hat (.guard hs)
    (.cons h (.cons (describes_ofDisposal hat hs) .nil))
  exact describes_part hat hroot
    (.cons (describes_part hat (.acquire hheld) .nil) (.cons hguard .nil))

theorem describes_ofIteration {iterator : Symbol} {collection : Expr} {l : Loop} {c : Scope}
    (hat : b.at? site = some (.iteration iterator collection l c))
    (hroot : b.Makes (.iteration iterator collection l c) (.ofIteration iterator collection n))
    (h : p.Describes b n) :
    (ofIteration site iterator p).Describes b (.ofIteration iterator collection n) := by
  unfold ofIteration
  unfold Node.ofIteration at hroot ⊢
  split
  next hdisposable =>
    rw [if_pos hdisposable] at hroot
    exact describes_withCleanup hat rfl (if_pos hdisposable) (.root rfl hroot) h
  next hdisposable =>
    rw [if_neg hdisposable] at hroot
    exact describes_part hat (.root rfl hroot)
      (.cons (describes_part hat (.acquire rfl) .nil) (.cons h .nil))

theorem describes_ofLinks {links : List (Expr × Scope)} {otherwise : Option Scope} {k : Nat}
    {ps : List Plan} {ls : List (Expr × Node)}
    (hat : b.at? site = some (.conditional links otherwise))
    (hps : List.Forall₂ (fun p l => p.Describes b l.2) ps ls)
    (hls : ∀ i l, ls[i]? = some l → ∃ c, links[k + i]? = some (l.1, c)) (h : q.Describes b n) :
    (ofLinks site k ps q).Describes b (.ofLinks ls n) := by
  -- `ls` are the links behind the first `k`: each test is in the alternative of the one before it.
  induction hps generalizing k with
  | nil => exact h
  | @cons p l ps ls hp _ ih =>
    obtain ⟨c, hc⟩ := hls 0 l rfl
    have hrest := ih (k := k + 1) fun i l hl => by
      rw [Nat.add_assoc, Nat.add_comm 1]
      exact hls (i + 1) l hl
    exact describes_part (n := .branch l.1 l.2 (.ofLinks ls n)) hat (.link hc)
      (.cons hp (.cons hrest .nil))

end Plan

/-! ## Scopes -/

/-- The sheet describes the block that the scope is assembled to. -/
structure Sheet.Describes (b : Builder) (s : Scope) (sh : Sheet) (B : Block) : Prop where
  found : b.top.find? sh.id = some s
  locals : B.locals = s.frame.locals
  bare : sh.bare = s.frame.locals.isEmpty
  stmts : sh.items = [] → s.stmts = []
  nodes : List.Forall₂ (Plan.Describes b) sh.items B.nodes

namespace Sheet.Describes

variable {b : Builder} {s : Scope} {sh : Sheet} {B : Block}

theorem isEmpty_eq (h : sh.Describes b s B) : B.isEmpty = sh.isEmpty := by
  obtain ⟨id, bare, items⟩ := sh
  obtain ⟨locals, nodes⟩ := B
  obtain ⟨-, rfl, rfl, -, hnodes⟩ := h
  cases hnodes <;> rfl

theorem cons {p : Plan} {n : Node} (h : sh.Describes b s B) (hp : p.Describes b n) :
    (sh.cons p).Describes b s (B.cons n) :=
  ⟨h.found, h.locals, h.bare, nofun, .cons hp h.nodes⟩

theorem collapse (h : sh.Describes b s B) : sh.collapse.Describes b B.collapse := by
  have hblock : (Plan.node (.block sh.id) [] sh.items).Describes b (.block B.locals B.nodes) :=
    .node ⟨s, B.nodes, h.found, by rw [h.locals]⟩ nofun h.nodes
  obtain ⟨id, bare, items⟩ := sh
  obtain ⟨locals, nodes⟩ := B
  obtain ⟨found, rfl, rfl, hstmts, hnodes⟩ := h
  cases hlocals : s.frame.locals with
  | cons x xs =>
    rw [hlocals] at hblock
    exact hblock
  | nil =>
    rw [hlocals] at hblock
    cases hnodes with
    | nil =>
      refine .node ⟨s, found, ?_, rfl⟩ nofun .nil
      rw [Scope.isVacant, hstmts rfl, hlocals]
      rfl
    | @cons p n items nodes hp hrest =>
      cases hrest with
      | nil => exact hp
      | cons => exact hblock

end Sheet.Describes

/-! ## Switches -/

theorem Scope.isEmpty_sheet (s : Scope) : s.sheet.isEmpty = s.isVacant := by
  rw [sheet_eq, Sheet.isEmpty, isVacant]
  cases s.stmts <;> rfl

/-- The group of a switch with a block for its scope. -/
def Builder.groupBlock (b : Builder) (g : Arm (Option Scope)) : Arm Block :=
  ⟨g.values, (g.body.map (Scope.block b.label? Block.collapse)).getD .empty⟩

namespace Plan

variable {b : Builder} {site : Site} {stmt : Stmt Scope} {n : Node} {value : Expr}
  {groups : List (Arm (Option Scope))} {default : Option (Label × Scope)}

/-- The scope has a sheet that describes its block. -/
abbrev Covered (b : Builder) (c : Scope) : Prop :=
  c.sheet.Describes b c (c.block b.label? Block.collapse)

theorem isEmpty_groupBlock {g : Arm (Option Scope)} (hbody : ∀ c ∈ g.body, Covered b c) :
    (b.groupBlock g).body.isEmpty = g.body.all Scope.isVacant := by
  rw [Builder.groupBlock]
  cases hg : g.body with
  | none => rfl
  | some c => exact (hbody c hg).isEmpty_eq.trans c.isEmpty_sheet

theorem all_isEmpty_sheet (body : Option Scope) :
    (body.map Scope.sheet).all Sheet.isEmpty = body.all Scope.isVacant := by
  cases body with
  | none => rfl
  | some c => exact c.isEmpty_sheet

theorem describes_ofGroup {g : Arm (Option Scope)} {k : Nat} {otherwise : Node}
    (hat : b.at? site = some stmt)
    (hvacant : g.body.all Scope.isVacant = true → b.Prescribes stmt (.group k) otherwise)
    (hleaf : otherwise.children = []) (hbody : ∀ c ∈ g.body, Covered b c) :
    (ofGroup site (g.body.map Scope.sheet) k).Describes b
      (Node.ofSwitch.arm Block.collapse otherwise (b.groupBlock g)).body := by
  unfold ofGroup Node.ofSwitch.arm
  dsimp only
  rw [all_isEmpty_sheet, isEmpty_groupBlock hbody]
  split
  next hempty => exact describes_part hat (hvacant hempty) (hleaf ▸ .nil)
  next hempty =>
    rw [Builder.groupBlock]
    cases hg : g.body with
    | none =>
      rw [hg] at hempty
      exact absurd rfl hempty
    | some c => exact (hbody c hg).collapse

theorem describes_groups (otherwise : Node) (hat : b.at? site = some stmt)
    (hvacant : ∀ (k : Nat) g, groups[k]? = some g → g.body.all Scope.isVacant = true →
      b.Prescribes stmt (.group k) otherwise)
    (hleaf : otherwise.children = []) (hbodies : ∀ g ∈ groups, ∀ c ∈ g.body, Covered b c) :
    List.Forall₂ (Describes b)
      ((groups.map fun g => g.body.map Scope.sheet).zipIdx.map fun g => ofGroup site g.1 g.2)
      ((groups.map b.groupBlock).map fun g =>
        (Node.ofSwitch.arm Block.collapse otherwise g).body) := by
  rw [List.zipIdx_map, List.map_map, List.map_map]
  conv_rhs => rw [← List.zipIdx_map_fst 0 groups, List.map_map]
  refine forall₂_map_map fun p hp => ?_
  have hk := List.mem_zipIdx_iff_getElem?.mp hp
  exact describes_ofGroup hat (hvacant p.2 p.1 hk) hleaf (hbodies p.1 (List.mem_of_getElem? hk))

/-- A switch that has groups. -/
theorem describes_ofSwitch (hat : b.at? site = some (.switch value groups default))
    (hgroups : groups ≠ []) (hbodies : ∀ g ∈ groups, ∀ c ∈ g.body, Covered b c)
    (hdefault : ∀ d ∈ default, Covered b d.2)
    (hroot : b.Makes (.switch value groups default) (.ofSwitch Block.collapse value
      (groups.map b.groupBlock)
      (default.map fun d => (d.1, d.2.block b.label? Block.collapse)))) :
    (ofSwitch site (groups.map fun g => g.body.map Scope.sheet)
      (default.map fun d => d.2.sheet)).Describes b (.ofSwitch Block.collapse value
        (groups.map b.groupBlock)
        (default.map fun d => (d.1, d.2.block b.label? Block.collapse))) := by
  rw [ofSwitch_eq site fun hnil => absurd (List.map_eq_nil_iff.mp hnil) hgroups]
  cases default with
  | none =>
    have harms := describes_groups .nop hat (fun k g => .group) rfl hbodies
    refine describes_part hat (.root (Stmt.hasRoot_switch hgroups) hroot) ?_
    show List.Forall₂ _ (_ ++ []) (List.map Arm.body _ ++ [])
    rw [List.append_nil, List.append_nil, List.map_map]
    exact harms
  | some d =>
    obtain ⟨fall, c⟩ := d
    have harms := describes_groups (.jump fall) hat (fun k g => .falls) rfl hbodies
    have hany : (groups.map b.groupBlock).any (·.body.isEmpty) =
        (groups.map fun g => g.body.map Scope.sheet).any (·.all Sheet.isEmpty) :=
      any_eq_of_forall₂ (fun _ _ h => h) (forall₂_map_map fun g hg =>
        (isEmpty_groupBlock (hbodies g hg)).trans (all_isEmpty_sheet g.body).symm)
    have hc : Covered b c := hdefault (fall, c) rfl
    have hfirst : (ofDefault site ((groups.map fun g => g.body.map Scope.sheet).any
        (·.all Sheet.isEmpty)) c.sheet).Describes b
          (if (groups.map b.groupBlock).any (·.body.isEmpty) then
            (c.block b.label? Block.collapse).cons (.mark fall)
          else c.block b.label? Block.collapse).collapse := by
      rw [hany, ofDefault]
      split
      next hfalls =>
        obtain ⟨_, hg, hempty⟩ := List.any_eq_true.mp hfalls
        obtain ⟨g, hmem, rfl⟩ := List.mem_map.mp hg
        rw [all_isEmpty_sheet] at hempty
        exact (hc.cons (describes_part hat (.fall hmem hempty) .nil)).collapse
      next => exact hc.collapse
    refine describes_part hat (.root (Stmt.hasRoot_switch hgroups) hroot) ?_
    show List.Forall₂ _ _ (List.map Arm.body _ ++ _)
    rw [List.map_map]
    exact List.rel_append harms (.cons hfirst .nil)

end Plan

/-! ## Statements and scopes -/

theorem forall₂_zipIdx {α β : Type} {R : α → β → Prop} {xs : List α} {ys : List β}
    (h : List.Forall₂ R xs ys) :
    List.Forall₂ (fun p y => xs[p.2]? = some p.1 ∧ R p.1 y) xs.zipIdx ys := by
  refine List.forall₂_iff_get.mpr ⟨by simp [h.length_eq], fun i hi hi' => ?_⟩
  have hlt : i < xs.length := by simpa using hi
  simp only [List.get_eq_getElem, List.getElem_zipIdx, Nat.zero_add]
  exact ⟨List.getElem?_eq_getElem hlt, (List.forall₂_iff_get.mp h).2 i hlt hi'⟩

/-- Every scope in a scope that fits has surroundings into which it fits. -/
theorem Scope.Fits.exists_of_within {Γ : Surroundings} {root s : Scope} {outer : Chain}
    (h : root.Fits Γ) (place : root.Within outer s) : ∃ Γ', s.Fits Γ' := by
  induction place with
  | here => exact ⟨Γ, h⟩
  | @inside outer s c _ hc ih =>
    obtain ⟨Γ', hs⟩ := ih
    obtain ⟨-, -, Γ'', -, hc⟩ := hs.exists_inner hc
    exact ⟨Γ'', hc⟩

namespace Builder

variable {F : Fragment → Prop} {b : Builder} {site : Site} {stmt : Stmt Scope} {n : Node}

theorem Makes.describes_switch {value : Expr} {groups : List (Arm (Option Scope))}
    {default : Option (Label × Scope)} (h : b.Makes (.switch value groups default) n)
    (hat : b.at? site = some (.switch value groups default))
    (hscopes : ∀ c ∈ (Stmt.switch value groups default).scopes, Plan.Covered b c) :
    (((Stmt.switch value groups default).map Scope.sheet).design site).Describes b n := by
  have hbodies : ∀ g ∈ groups, ∀ c ∈ g.body, Plan.Covered b c := fun g hg c hc =>
    hscopes c (List.mem_append_left _ (List.mem_filterMap.mpr ⟨g, hg, hc⟩))
  have hdefault : ∀ d ∈ default, Plan.Covered b d.2 := fun d hd =>
    have hbody := Option.mem_toList.mpr (Option.mem_map_of_mem Prod.snd hd)
    hscopes d.2 (List.mem_append_right _ hbody)
  have hbecomes := h
  unfold Makes at hbecomes
  rw [Stmt.map] at hbecomes
  by_cases hgroups : groups = []
  · subst hgroups
    cases default with
    | none =>
      cases hbecomes with
      | switch nonempty => exact absurd rfl nonempty
    | some d =>
      cases hbecomes with
      | soleDefault => exact (hdefault d rfl).collapse
      | switch nonempty => exact absurd rfl nonempty
  · obtain rfl := hbecomes.switch_eq fun hnil => hgroups (List.map_eq_nil_iff.mp hnil)
    rw [List.map_map] at h ⊢
    rw [Stmt.map, Stmt.design, List.map_map, Option.map_map]
    exact Plan.describes_ofSwitch hat hgroups hbodies hdefault h

/-- The plan of a statement describes what the statement becomes, if this is so of its scopes. -/
theorem Makes.describes (h : b.Makes stmt n) (hat : b.at? site = some stmt)
    (hleaf : ∀ m, stmt = .node m → m.children = [])
    (hscopes : ∀ c ∈ stmt.scopes, Plan.Covered b c) :
    ((stmt.map Scope.sheet).plan site).Describes b n := by
  refine Plan.Describes.standing ?_ hat h
  have hbecomes := h
  unfold Makes at hbecomes
  cases stmt with
  | node m =>
    cases hbecomes
    exact Plan.describes_part hat (.root rfl h) (hleaf n rfl ▸ .nil)
  | goto name =>
    cases hbecomes
    exact Plan.describes_part hat (.root rfl h) .nil
  | conditional links otherwise =>
    cases hbecomes
    refine Plan.describes_ofLinks hat ?_ (fun i l hl => ?_) ?_
    · rw [List.map_map, List.map_map]
      refine forall₂_map_map fun l hl => (hscopes l.2 ?_).collapse
      exact List.mem_append_left _ (List.mem_map_of_mem hl)
    · rw [List.getElem?_map, List.getElem?_map, Option.map_map, Option.map_eq_some_iff] at hl
      obtain ⟨⟨test, c⟩, hl, rfl⟩ := hl
      exact ⟨c, by rw [Nat.zero_add]; exact hl⟩
    · cases otherwise with
      | none => exact Plan.describes_part hat .absent .nil
      | some c =>
        exact (hscopes c (List.mem_append_right _ (List.mem_singleton_self _))).collapse
  | loop l c =>
    cases hbecomes
    have hbody := hscopes c (List.mem_singleton_self _)
    exact Plan.describes_ofLoop hat rfl (.root rfl h) hbody.collapse
  | iteration iterator collection l c =>
    cases hbecomes
    refine Plan.describes_ofIteration hat h (Plan.describes_ofLoop hat rfl .walk ?_)
    exact (hscopes c (List.mem_singleton_self _)).collapse
  | switch value groups default => exact h.describes_switch hat hscopes
  | attempt body handlers cleanup =>
    cases hbecomes
    refine Plan.describes_part hat (.root rfl h) (.cons ?_ (List.rel_append ?_ ?_))
    · exact (hscopes body List.mem_cons_self).collapse
    · rw [List.map_map, List.map_map, List.map_map]
      refine forall₂_map_map fun k hk => (hscopes k.body ?_).collapse
      exact List.mem_cons_of_mem _ (List.mem_append_left _ (List.mem_map_of_mem hk))
    · cases cleanup with
      | none => exact .nil
      | some c =>
        refine .cons (hscopes c ?_).collapse .nil
        exact List.mem_cons_of_mem _ (List.mem_append_right _ (List.mem_singleton_self _))
  | resource s producer c =>
    cases hbecomes
    refine Plan.describes_withCleanup hat rfl rfl (.root rfl h) ?_
    exact (hscopes c (List.mem_singleton_self _)).collapse

/-- A node that is a statement of its own has nothing inside. -/
theorem Built.leaf (hb : b.Built F) (hat : b.at? site = some (.node n)) : n.children = [] := by
  obtain ⟨outer, s, place, -, hstmt⟩ := exists_of_at? hat
  obtain ⟨Γ, hfits⟩ := hb.sound.fits.exists_of_within place
  exact (hfits.checks (List.mem_of_getElem? hstmt)).2

/-- What the sheet of a scope says of the block that the scope is assembled to. -/
theorem Built.sheet_describes (hb : b.Built F) {outer : Chain} {s : Scope} {B : Block}
    (place : b.top.Within outer s) (h : s.assemble b.label? Block.collapse = .ok B) :
    s.sheet.Describes b s B := by
  induction s using Scope.induct generalizing outer B with
  | step s ih =>
    obtain ⟨hlocals, hall⟩ := Scope.assemble_ok h
    have hdistinct := hb.numbered.distinct
    rw [Scope.sheet_eq]
    refine ⟨place.find?_eq hdistinct, hlocals, rfl, fun hnil => ?_, ?_⟩
    · exact List.length_eq_zero_iff.mp (by simpa using congrArg List.length hnil)
    · refine List.forall₂_map_left_iff.mpr ((forall₂_zipIdx hall).imp ?_)
      rintro ⟨stmt, i⟩ n ⟨hi, t, ht, hbecomes⟩
      rw [Scope.eq_map_block ht] at hbecomes
      have hat : b.at? ⟨s.frame.id, i⟩ = some stmt := (at?_of_within hdistinct place i).trans hi
      have hleaf : ∀ m, stmt = .node m → m.children = [] := fun m hm => hb.leaf (hm ▸ hat)
      refine Makes.describes hbecomes hat hleaf fun c hc => ?_
      obtain ⟨C, -, hC⟩ := Scope.exists_of_map ht hc
      have hchild : c ∈ s.children :=
        Scope.mem_children.mpr ⟨stmt, List.mem_of_getElem? hi, hc⟩
      rw [Plan.Covered, Scope.block_eq hC]
      exact ih c hchild (place.inside hchild) hC

variable {a : Artifact}

/-- The plan of a builder describes the body that the builder is assembled to. -/
theorem Built.plan_describes (hb : b.Built F) (ha : b.assemble = .ok a) :
    b.plan.Describes b a.body := by
  obtain ⟨-, hreturn, B, hB, hbody⟩ := assemble_ok ha
  rw [Artifact.returnType, hreturn] at hbody
  rw [hbody]
  have hnone {n : Node} : ∀ site ∈ ([] : List Site), ∃ stmt, b.at? site = some stmt ∧
      b.Makes stmt n := fun _ h => absurd h List.not_mem_nil
  refine .node ⟨_, rfl⟩ hnone (.cons (hb.sheet_describes .here hB).collapse (.cons ?_ .nil))
  exact .node rfl hnone .nil

end Builder

end StructuredFlow
