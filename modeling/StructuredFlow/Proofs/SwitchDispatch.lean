import StructuredFlow.Proofs.InnermostLoop
import StructuredFlow.Proofs.SwitchMeaning
import StructuredFlow.Proofs.SwitchOpenings

/-
  The dispatch law of switches (`Builder.Reachable.switch_law`). The label in front of a default
  belongs to its switch alone (`Builder.Placed.stmt_eq`), so what the scopes of the switch are
  assembled to ignores it (`Builder.Built.ignores`), and the node of a switch means what the switch
  does; its groups have a body to enter exactly if their scope has statements or locals
  (`Builder.GroupBecomes`). So the order in which the arms were opened leaves no trace, whether the
  default came before the groups, among them or behind them.
-/

namespace StructuredFlow

variable {ω : Type}

/-! ## Where jumps lead to from a scope -/

/-- Inside of a statement jumps lead to where they lead outside, or to a label of the statement if it
is a loop. -/
theorem Stmt.targets_inner {σ : Type} {Γ : Surroundings} {stmt : Stmt σ} {p : Surroundings × σ}
    (h : p ∈ stmt.inner Γ) {l : LabelId} (hl : p.1.targets l) :
    Γ.targets l ∨ ∃ labels ∈ stmt.loopLabels?, l = labels.1.id ∨ l = labels.2.id := by
  cases stmt with
  | node n => cases h
  | goto name => cases h
  | conditional links otherwise =>
    obtain ⟨c, -, rfl⟩ := List.mem_map.mp h
    exact .inl hl
  | loop loop body =>
    obtain rfl := List.mem_singleton.mp h
    exact hl.imp_right fun hl => ⟨_, rfl, hl⟩
  | iteration iterator collection loop body =>
    obtain rfl := List.mem_singleton.mp h
    exact hl.imp_right fun hl => ⟨_, rfl, hl⟩
  | switch value groups default =>
    obtain ⟨c, -, rfl⟩ := List.mem_map.mp h
    exact .inl hl
  | attempt body handlers cleanup =>
    rcases List.mem_cons.mp h with rfl | h
    · exact .inl hl
    rcases List.mem_append.mp h with h | h
    · obtain ⟨c, -, rfl⟩ := List.mem_map.mp h
      exact .inl hl
    · obtain ⟨c, -, rfl⟩ := List.mem_map.mp h
      exact .inl hl
  | resource symbol producer body =>
    obtain rfl := List.mem_singleton.mp h
    exact .inl hl

theorem Stmt.mem_place_of_loopLabels? {σ : Type} {stmt : Stmt σ} {labels : Label × Label}
    (h : labels ∈ stmt.loopLabels?) : labels.1 ∈ stmt.place ∧ labels.2 ∈ stmt.place := by
  cases stmt with
  | loop l _ | iteration _ _ l _ =>
    cases h
    exact ⟨List.mem_cons_self, List.mem_cons_of_mem _ (List.mem_singleton_self _)⟩
  | _ => cases h

namespace Scope

variable {Γ : Surroundings} {root s : Scope} {outer : Chain}

/-- A scope inside of one that fits has surroundings that take no more jumps than those around, and
those to the labels of loops. -/
theorem Fits.of_within (h : root.Fits Γ) (place : root.Within outer s) :
    ∃ Γ', s.Fits Γ' ∧ Γ ≤ Γ' ∧ ∀ l, Γ'.targets l → Γ.targets l ∨
      ∃ o t stmt, root.Within o t ∧ stmt ∈ t.stmts ∧
        ∃ labels ∈ stmt.loopLabels?, l = labels.1.id ∨ l = labels.2.id := by
  induction place with
  | here => exact ⟨Γ, h, Surroundings.le_refl Γ, fun _ => .inl⟩
  | @inside outer s c place hc ih =>
    obtain ⟨Γ', hs, hle, htargets⟩ := ih
    obtain ⟨stmt, hstmt, Γ'', hinner, hc⟩ := hs.exists_inner hc
    have hle' := Surroundings.le_trans (Γ'.le_bind s.frame.locals) (Stmt.le_inner hinner)
    refine ⟨Γ'', hc, Surroundings.le_trans hle hle', fun l hl => ?_⟩
    rcases Stmt.targets_inner hinner hl with hl | hl
    · exact htargets l hl
    · exact .inr ⟨_, _, _, place, hstmt, hl⟩

end Scope

/-- A node that fits shuns the labels to which its surroundings take no jumps. -/
theorem Node.Fits.shuns {n : Node} {Γ : Surroundings} {hidden : LabelId → Prop} (h : n.Fits Γ)
    (hΓ : ∀ l, hidden l → ¬Γ.targets l) : n.Shuns ω hidden := by
  intro l v hl d m m' hjump
  obtain ⟨k, hk⟩ := Node.yields_iff_comes.mp hjump
  exact hΓ l hl (h.jump hk.execWithin_eq)

namespace Builder

variable {F : Fragment → Prop} {b : Builder} {a : Artifact} {outer : Chain} {s c : Scope}
  {value : Expr} {groups : List (Arm (Option Scope))} {fall : Label} {d : Scope} {B : Block}

/-- What the scopes of a switch are assembled to ignores the label in front of its default. -/
theorem Built.ignores (hb : b.Built F) (hs : b.top.Within outer s)
    (hstmt : .switch value groups (some (fall, d)) ∈ s.stmts)
    (hc : c ∈ (Stmt.switch value groups (some (fall, d))).scopes)
    (hB : c.assemble b.label? Block.collapse = .ok B) : B.Ignores ω fall.id := by
  have hfall : fall ∈ (Stmt.switch value groups (some (fall, d))).place := List.mem_singleton_self _
  have hmem : fall ∈ b.top.places := by
    rw [Scope.places_eq_flatMap]
    refine List.mem_flatMap.mpr ⟨_, List.mem_flatMap.mpr ⟨s, ?_, hstmt⟩, hfall⟩
    exact Scope.mem_subscopes_iff.mpr ⟨outer, hs⟩
  -- The number of the label belongs to the switch and to no other statement.
  have alone : ∀ {o t stmt l}, b.top.Within o t → stmt ∈ t.stmts → l ∈ stmt.place → l.id = fall.id →
      stmt = .switch value groups (some (fall, d)) :=
    fun ht hstmt' hl hid => hb.placed.stmt_eq ht hs hstmt' hstmt hl hfall hid
  have hmarks : ∀ l, b.top.Marks l → l ≠ fall.id := by
    rintro _ ⟨o, t, ht, n, hn, hmarks⟩ rfl
    cases n with
    | label target default =>
      have hplace : target ∈ (Stmt.node (σ := Scope) (.label target default)).place :=
        List.mem_singleton_self _
      cases alone ht hn hplace (beq_iff_eq.mp hmarks)
    | _ => exact absurd hmarks Bool.false_ne_true
  have hinside := hs.inside (Scope.mem_children.mpr ⟨_, hstmt, hc⟩)
  obtain ⟨Γ, hfits, hle, htargets⟩ := hb.sound.fits.of_within hinside
  have hne : ∀ l, Γ.targets l → l ≠ fall.id := by
    rintro _ hl rfl
    rcases htargets _ hl with (hreturn | hmarked) | ⟨o, t, stmt, ht, hstmt', labels, hlabels, hid⟩
    · exact (List.nodup_cons.mp hb.placed.ids).1 (hreturn ▸ List.mem_map_of_mem hmem)
    · exact hmarks _ hmarked rfl
    · obtain ⟨hleave, hnext⟩ := Stmt.mem_place_of_loopLabels? hlabels
      obtain rfl : stmt = _ := hid.elim (fun hid => alone ht hstmt' hleave hid.symm)
        fun hid => alone ht hstmt' hnext hid.symm
      cases hlabels
  have hplaced : ∀ l, B.collapse.defines l = true → l ≠ fall.id := by
    rintro _ hl rfl
    obtain ⟨target, htarget, hid⟩ := Node.exists_mem_places hl
    rw [Block.closes_collapse.places] at htarget
    have hplace := (Scope.places_of_assemble Block.closes_collapse hB).subset htarget
    rw [Scope.places_eq_flatMap, List.mem_flatMap] at hplace
    obtain ⟨stmt, hmem, htarget⟩ := hplace
    obtain ⟨t, ht, hstmt'⟩ := List.mem_flatMap.mp hmem
    obtain ⟨inner, ht⟩ := Scope.mem_subscopes_iff.mp ht
    obtain rfl := alone (hinside.trans ht) hstmt' htarget hid
    -- The scope would be inside of itself.
    have hself := ht.inside (Scope.mem_children.mpr ⟨_, hstmt', hc⟩)
    have houter := (hself.unique (hinside.distinct hb.numbered.distinct) .here rfl).1
    cases houter
  let Γ' : Surroundings := { Γ with targets := (· ≠ fall.id) }
  have hΓ' : Γ ≤ Γ' := ⟨id, rfl, fun _ => id, hne, id⟩
  have hblock : B.toNode.Fits Γ' := by
    refine Scope.fits_of_assemble (hfits.mono hΓ') hB (fun name l hl => ?_) hplaced
    obtain ⟨hmarked, hexit⟩ := hb.sound.labels l (List.mem_of_find?_eq_some hl)
    refine ⟨hmarks _ hmarked, ?_⟩
    show l.id ≠ Γ.exit.id
    rw [hle.exit]
    exact hexit
  refine ⟨fun n hn => ?_, Bool.eq_false_iff.mpr fun hl => hplaced _ hl rfl⟩
  exact (hblock.part hn).shuns fun l hl htarget => htarget hl

/-- All bodies of a switch ignore that label, also those of groups without a scope. -/
theorem Built.switch_ignores (hb : b.Built F) (hs : b.top.Within outer s)
    (hstmt : .switch value groups (some (fall, d)) ∈ s.stmts) {groups' : List (Arm (Option Block))}
    {D : Block}
    (hblocks : List.Forall₂ (fun (c : Scope) B => c.assemble b.label? Block.collapse = .ok B)
      (Stmt.switch value groups (some (fall, d))).scopes
      (Stmt.switch value groups' (some (fall, D))).scopes) :
    ∀ B ∈ D :: (groups'.map fun g => (⟨g.values, g.body.getD .empty⟩ : Arm Block)).map Arm.body,
      B.Ignores ω fall.id := by
  have ignores : ∀ B ∈ (Stmt.switch value groups' (some (fall, D))).scopes,
      B.Ignores ω fall.id := by
    intro B hB
    obtain ⟨c, hc, hok⟩ := exists_left_of_forall₂ hblocks hB
    exact hb.ignores hs hstmt hc hok
  refine List.forall_mem_cons.mpr ⟨ignores D ?_, ?_⟩
  · exact List.mem_append_right _ (List.mem_singleton_self _)
  rw [List.map_map, List.forall_mem_map]
  intro g hg
  cases hbody : g.body with
  | none =>
    simp only [Function.comp_apply, hbody, Option.getD_none]
    exact Block.ignores_empty _
  | some B =>
    simp only [Function.comp_apply, hbody, Option.getD_some]
    exact ignores B (List.mem_append_left _ (List.mem_filterMap.mpr ⟨g, hg, hbody⟩))

/-- What a group of a switch is in the program. It has a body to enter if its scope has statements or
locals, and that is what the scope is assembled to. -/
inductive GroupBecomes (b : Builder) : Arm (Option Scope) → Arm (Option Node) → Prop
  | empty {values body} (nothing : ∀ c ∈ body, c.stmts = [] ∧ c.frame.locals = []) :
      GroupBecomes b ⟨values, body⟩ ⟨values, none⟩
  | body {values c n} (something : ¬(c.stmts = [] ∧ c.frame.locals = []))
      (assembled : b.assembleScope c.frame.id = .ok n) :
      GroupBecomes b ⟨values, some c⟩ ⟨values, some n⟩

/-- A group of a switch becomes a group without a body if there is nothing in its scope. -/
theorem groupBecomes {g : Arm (Option Scope)} {g' : Arm (Option Block)}
    (hg : g' = ⟨g.values, g'.body⟩)
    (hbody : g.body.map (Scope.assemble b.label? Block.collapse) = g'.body.map .ok)
    (hplace : ∀ c ∈ g.body, ∀ B, c.assemble b.label? Block.collapse = .ok B →
      b.assembleScope c.frame.id = .ok B.collapse) :
    b.GroupBecomes g (Switch.ofGroup ⟨g'.values, g'.body.getD .empty⟩) := by
  obtain ⟨values, body⟩ := g
  obtain ⟨values', body'⟩ := g'
  obtain ⟨rfl, -⟩ := Arm.mk.inj hg
  cases body with
  | none =>
    cases body' with
    | none => exact .empty (by simp)
    | some B => cases hbody
  | some c =>
    cases body' with
    | none => cases hbody
    | some B =>
      have hB : c.assemble b.label? Block.collapse = .ok B := Option.some.inj hbody
      have hempty := isEmpty_iff_of_assemble hB
      rw [Switch.ofGroup, Option.getD_some]
      split
      next h => exact .empty (by simpa using hempty.mp h)
      next h => exact .body (fun hnothing => h (hempty.mpr hnothing)) (hplace c rfl B hB)

/-- What a switch with groups is in the program means what the switch does, and the label in front of
its default is not seen outside. -/
theorem Built.switch_means (hb : b.Built F) (ha : b.assemble = .ok a) (hs : b.top.Within outer s)
    {default : Option (Label × Scope)} {i : Nat}
    (hi : s.stmts[i]? = some (.switch value groups default)) (hgroups : groups ≠ []) :
    ∃ n arms fallback, b.Translates a s i n ∧ List.Forall₂ b.GroupBecomes groups arms ∧
      Option.Rel (fun d n => b.assembleScope d.2.frame.id = .ok n) default fallback ∧
      (∀ (m : Machine ω) r, n.Yields none m r ↔ Switch.Means value arms fallback m r) ∧
      ∀ d ∈ default, n.Shuns ω (· = d.1.id) := by
  have hstmt := List.mem_of_getElem? hi
  have hplace : ∀ c ∈ (Stmt.switch value groups default).scopes, ∀ B,
      c.assemble b.label? Block.collapse = .ok B →
      b.assembleScope c.frame.id = .ok B.collapse := fun c hc B hB =>
    hb.assembleScope_eq (hs.inside (Scope.mem_children.mpr ⟨_, hstmt, hc⟩)) hB
  obtain ⟨n, t, htranslates, ht, hbecomes⟩ := exists_translates ha hs hi
  have hblocks := Scope.forall₂_of_map ht
  cases t with
  | switch value' groups' default' =>
    simp only [Stmt.map, Stmt.switch.injEq] at ht
    obtain ⟨rfl, hmap, hdefault⟩ := ht
    have hgroups' : groups' ≠ [] := by
      rintro rfl
      exact hgroups (by simpa using hmap)
    obtain rfl := hbecomes.switch_eq hgroups'
    have hapart : Node.Apart (Node.ofSwitch Block.collapse value
        (groups'.map fun g => (⟨g.values, g.body.getD .empty⟩ : Arm Block)) default').children := by
      obtain ⟨-, -, -, hmem⟩ := htranslates
      have hnodup := hb.placed.subnode_nodup Block.closes_collapse ha hmem
      rw [Node.places_eq, List.map_append] at hnodup
      exact Node.apart_of_nodup hnodup.of_append_right
    have hall := forall₂_with_mem (forall₂_of_map_eq hmap)
    have harms : List.Forall₂ b.GroupBecomes groups ((groups'.map fun g =>
        (⟨g.values, g.body.getD .empty⟩ : Arm Block)).map Switch.ofGroup) := by
      refine List.forall₂_map_right_iff.mpr (List.forall₂_map_right_iff.mpr (hall.imp ?_))
      rintro g g' ⟨hg, -, heq⟩
      obtain ⟨hvalues, hbody⟩ := Arm.mk.inj heq
      refine groupBecomes (hvalues ▸ rfl) hbody fun c hc => hplace c ?_
      exact List.mem_append_left _ (List.mem_filterMap.mpr ⟨g, hg, hc⟩)
    cases default with
    | none =>
      obtain rfl : default' = none := by simpa using hdefault.symm
      refine ⟨_, _, none, htranslates, harms, .none, fun m r => ?_, by simp⟩
      exact Node.ofSwitch_yields_iff hapart (by simp)
    | some d =>
      obtain ⟨fall, d⟩ := d
      obtain ⟨⟨fall', D⟩, rfl, hD⟩ := Option.map_eq_some_iff.mp hdefault.symm
      obtain ⟨rfl, hD⟩ := Prod.mk.inj hD
      have hd : d ∈ (Stmt.switch value groups (some (fall', d))).scopes :=
        List.mem_append_right _ (List.mem_singleton_self _)
      have hignores := hb.switch_ignores (ω := ω) hs hstmt hblocks
      refine ⟨_, _, _, htranslates, harms, .some (hplace d hd D hD.symm), fun m r => ?_, ?_⟩
      · refine Node.ofSwitch_yields_iff hapart fun _ hd => ?_
        obtain rfl := Option.some.inj hd
        exact hignores
      · intro _ hd
        obtain rfl := Option.some.inj hd
        exact Node.ofSwitch_shuns hignores
  | _ => cases ht

theorem GroupBecomes.unique {g : Arm (Option Scope)} {x y : Arm (Option Node)}
    (hx : b.GroupBecomes g x) (hy : b.GroupBecomes g y) : x = y := by
  cases hx with
  | empty nothing =>
    cases hy with
    | empty => rfl
    | body something => exact absurd (nothing _ rfl) something
  | body something assembled =>
    cases hy with
    | empty nothing => exact absurd (nothing _ rfl) something
    | body _ assembled' => rw [Except.ok.inj (assembled.symm.trans assembled')]

theorem Translates.unique {i : Nat} {n n' : Node} (h : b.Translates a s i n)
    (h' : b.Translates a s i n') : n = n' := by
  obtain ⟨B, hB, hn, -⟩ := h
  obtain ⟨B', hB', hn', -⟩ := h'
  cases hB.symm.trans hB'
  exact Option.some.inj (hn.symm.trans hn')

/-- The arms of two switches have the same values and the same bodies in their programs. -/
structure SameArms (b b' : Builder) (groups groups' : List (Arm (Option Scope)))
    (default default' : Option (Label × Scope)) : Prop where
  groups : List.Forall₂ (fun g g' => ∃ arm, b.GroupBecomes g arm ∧ b'.GroupBecomes g' arm)
    groups groups'
  default : Option.Rel (fun d d' => ∃ n, b.assembleScope d.2.frame.id = .ok n ∧
    b'.assembleScope d'.2.frame.id = .ok n) default default'

theorem SameArms.unique {b' : Builder} {groups groups' : List (Arm (Option Scope))}
    {default default' : Option (Label × Scope)} {arms arms' : List (Arm (Option Node))}
    {fallback fallback' : Option Node} (h : SameArms b b' groups groups' default default')
    (harms : List.Forall₂ b.GroupBecomes groups arms)
    (harms' : List.Forall₂ b'.GroupBecomes groups' arms')
    (hdefault : Option.Rel (fun d n => b.assembleScope d.2.frame.id = .ok n) default fallback)
    (hdefault' : Option.Rel (fun d n => b'.assembleScope d.2.frame.id = .ok n) default' fallback') :
    arms = arms' ∧ fallback = fallback' := by
  obtain ⟨hgroups, hsame⟩ := h
  constructor
  · clear hdefault hdefault' hsame
    induction hgroups generalizing arms arms' with
    | nil =>
      cases harms
      cases harms'
      rfl
    | cons hg _ ih =>
      obtain ⟨arm, hx, hy⟩ := hg
      cases harms with
      | cons hx' harms =>
        cases harms' with
        | cons hy' harms' => rw [← hx.unique hx', ← hy.unique hy', ih harms harms']
  · cases hsame with
    | none =>
      cases hdefault
      cases hdefault'
      rfl
    | some hd =>
      obtain ⟨n, hn, hn'⟩ := hd
      cases hdefault with
      | some hx =>
        cases hdefault' with
        | some hy => rw [Except.ok.inj (hx.symm.trans hn), Except.ok.inj (hy.symm.trans hn')]

/-- The dispatch law of switches. In the program a switch with groups means what it is to do: the
discriminant is evaluated once, then the match values in their order up to the first that equals it,
and what is entered is the body of its group, or the default if the group is empty or nothing matched;
only jumps into the bodies lead from one to another. No jump to the label in front of the default
leaves the switch. Switches whose arms have the same values and bodies come to the same, in whatever
order they were opened, and a default that is opened among the groups makes the same builder as one
that is opened behind them. -/
theorem Reachable.switch_law {default : Option (Label × Scope)} {i : Nat} (hb : b.Reachable)
    (ha : b.assemble = .ok a) (hs : b.top.Within outer s)
    (hi : s.stmts[i]? = some (.switch value groups default)) (hgroups : groups ≠ []) :
    ∃ n arms fallback, b.Translates a s i n ∧ List.Forall₂ b.GroupBecomes groups arms ∧
      Option.Rel (fun d n => b.assembleScope d.2.frame.id = .ok n) default fallback ∧
      (∀ (m : Machine ω) r, n.Yields none m r ↔ Switch.Means value arms fallback m r) ∧
      (∀ d ∈ default, n.Shuns ω (· = d.1.id)) ∧
      (∀ b' a' outer' s' i' groups' default' n', b'.Reachable → b'.assemble = .ok a' →
        b'.top.Within outer' s' → s'.stmts[i']? = some (.switch value groups' default') →
        SameArms b b' groups groups' default default' → b'.Translates a' s' i' n' →
        ∀ (m : Machine ω) r, n'.Yields none m r ↔ n.Yields none m r) ∧
      ∀ b₀ site before after id b₁, b₀.Reachable →
        ((do
          Build.caseSteps site before
          let id ← Build.openDefault site
          Build.caseSteps site after
          return id) b₀ = .ok id b₁ ↔
        (do
          Build.caseSteps site (before ++ after)
          Build.openDefault site) b₀ = .ok id b₁) := by
  obtain ⟨n, arms, fallback, htranslates, harms, hfallback, hmeans, hshuns⟩ :=
    hb.built.switch_means (ω := ω) ha hs hi hgroups
  refine ⟨n, arms, fallback, htranslates, harms, hfallback, hmeans, hshuns, ?_, ?_⟩
  · intro b' a' outer' s' i' groups' default' n' hb' ha' hs' hi' hsame htranslates' m r
    have hgroups' : groups' ≠ [] := by
      rintro rfl
      exact hgroups (List.forall₂_nil_right_iff.mp hsame.groups)
    obtain ⟨n'', arms', fallback', htranslates'', harms', hfallback', hmeans', -⟩ :=
      hb'.built.switch_means (ω := ω) ha' hs' hi' hgroups'
    obtain rfl := htranslates'.unique htranslates''
    obtain ⟨rfl, rfl⟩ := hsame.unique harms harms' hfallback hfallback'
    rw [hmeans, hmeans']
  · exact fun b₀ site before after id b₁ hb₀ => Build.default_opened_last hb₀.built before after

/-- A switch with an empty group, then its default, then a group with a body: the value of the empty
group leads to the default. -/
theorem switch_law_for_an_empty_group :
    let x : Symbol := ⟨0, "x", .int⟩
    let y : Symbol := ⟨1, "y", .int⟩
    let two : Node := .assign y (.const (.int 2))
    let three : Node := .assign y (.const (.int 3))
    let groups : List (Arm (Option Scope)) :=
      [⟨[.const (.int 1)], none⟩, ⟨[.const (.int 2)], some ⟨⟨2, .plain, [], []⟩, [.node two]⟩⟩]
    let default : Option (Label × Scope) :=
      some (.internal 1, ⟨⟨1, .plain, [], []⟩, [.node three]⟩)
    ∃ (b : Builder) (a : Artifact) (n : Node) (m m' : Machine Unit),
      b.Reachable ∧ b.assemble = .ok a ∧
      b.Translates a ⟨⟨0, .plain, [], [x, y]⟩, [.switch (.var x) groups default]⟩ 0 n ∧
      n.Shuns Unit (· = 1) ∧ m.env.get? 0 = some (.int 1) ∧ m'.env.get? 1 = some (.int 3) ∧
      n.Yields none m (.ok (.normal .void) m') := by
  intro x y two three groups default
  let state (groups : List (Arm (Option Scope))) (stmts : List (Stmt Scope)) (scopes : Nat) :
      Builder := ⟨⟨"f", false⟩, [x, y], .internal 0, [], ⟨⟨0, .plain, [], [x, y]⟩,
        [.switch (.var x) groups (some (.internal 1, ⟨⟨1, .plain, [], []⟩, stmts⟩))]⟩, scopes, 2, 2⟩
  let b : Builder := state groups [.node three] 3
  have hcreate : Builder.create ⟨"f", false⟩ [⟨"x", .int⟩, ⟨"y", .int⟩] .void =
      .ok ⟨⟨"f", false⟩, [x, y], .internal 0, [], ⟨⟨0, .plain, [], [x, y]⟩, []⟩, 1, 2, 1⟩ := rfl
  have hswitch := (Reachable.create hcreate).opening 0 (.switchOn ⟨[], .var x⟩)
  have hempty := hswitch.step (h := .switch ⟨0, 0⟩) (s := .case ⟨[], .const (.int 1)⟩) rfl
  have hdefault : (state [⟨[.const (.int 1)], none⟩] [] 2).Reachable :=
    hempty.step (h := .switch ⟨0, 0⟩) (s := .default) rfl
  have hthree : (state [⟨[.const (.int 1)], none⟩] [.node three] 2).Reachable :=
    hdefault.statement 1 (.assign "y" .int ⟨[], .const (.int 3)⟩)
  have hcase : (state [⟨[.const (.int 1)], none⟩, ⟨[.const (.int 2)], none⟩] [.node three]
      2).Reachable :=
    hthree.step (h := .switch ⟨0, 0⟩) (s := .case ⟨[], .const (.int 2)⟩) rfl
  have hbody : (state [⟨[.const (.int 1)], none⟩,
      ⟨[.const (.int 2)], some ⟨⟨2, .plain, [], []⟩, []⟩⟩] [.node three] 3).Reachable :=
    hcase.step (h := .case ⟨0, 0⟩ 1) (s := .caseBody) rfl
  have hreach : b.Reachable := hbody.statement 2 (.assign "y" .int ⟨[], .const (.int 2)⟩)
  obtain ⟨a, ha⟩ : ∃ a, b.assemble = .ok a := ⟨_, rfl⟩
  have hstands : b.top.stmts[0]? = some (.switch (.var x) groups default) := rfl
  obtain ⟨n, arms, fallback, htranslates, harms, hfallback, hmeans, hshuns, -, -⟩ :=
    hreach.switch_law (ω := Unit) ha .here hstands (List.cons_ne_nil _ _)
  obtain ⟨arm, rest, harm, hrest, rfl⟩ : ∃ arm rest, _ ∧ List.Forall₂ _ groups.tail rest ∧
      arms = arm :: rest := List.forall₂_cons_left_iff.mp harms
  obtain rfl : arm = ⟨[.const (.int 1)], none⟩ := harm.unique (.empty (by simp))
  have hfallback' : Option.Rel _ (some (Label.internal 1,
      (⟨⟨1, .plain, [], []⟩, [.node three]⟩ : Scope))) fallback := hfallback
  cases hfallback' with
  | @some _ d hd =>
    obtain rfl : three = d := Except.ok.inj hd
    let m : Machine Unit := (Machine.new Host.empty () 9).assign x (.int 1)
    let m' : Machine Unit := m.assign y (.int 3)
    have hrun : three.Yields none m (.ok (.normal .void) m') :=
      Node.yields_iff_comes.mpr ⟨_, .done⟩
    have hscan : Switch.Scans (.int 1) (Switch.tests (⟨[.const (.int 1)], none⟩ :: rest)) m
        (.ok (some none) m) := .equals rfl rfl
    refine ⟨b, a, n, m, m', hreach, ha, htranslates, hshuns _ rfl, rfl, rfl, ?_⟩
    exact (hmeans m _).mpr (.enters rfl hscan (.body (.ends hrun (by simp))))

end Builder

end StructuredFlow
