import StructuredFlow.Proofs.AssemblyShape
import StructuredFlow.Proofs.BuilderFits

/-
  What a fitting program is assembled to fits again. Each construct puts around its parts what
  surrounded its scopes (`Stmt.Becomes.fits`), and every label that is placed in a scope is placed
  in its block, so jumps by name and the fall through empty groups have a place to go to
  (`Scope.fits_of_assemble`). For the artifact of a sound builder this leaves the parameters and
  the labels of the body (`Builder.Sound.fits_of_assemble`).
-/

namespace StructuredFlow

variable {Γ : Surroundings}

namespace Node

/-! ## Constructs -/

theorem Fits.block {locals : List Symbol} {body : List Node}
    (h : ∀ n ∈ body, n.Fits (Γ.bind locals)) : (Node.block locals body).Fits Γ :=
  .intro ⟨nofun, nofun, nofun, nofun⟩ h nofun

theorem Fits.branch {test : Expr} {yes no : Node} (htest : Γ.Reads test) (hyes : yes.Fits Γ)
    (hno : no.Fits Γ) : (Node.branch test yes no).Fits Γ := by
  refine .intro ⟨fun e he => ?_, nofun, nofun, nofun⟩ (fun c hc => ?_) nofun
  · obtain rfl := List.mem_singleton.mp he
    exact htest
  · rcases List.mem_cons.mp hc with rfl | hc
    · exact hyes
    · obtain rfl := List.mem_singleton.mp hc
      exact hno

theorem Fits.loop {body : Node} {leave next : Label} (h : body.Fits (Γ.around leave next)) :
    (Node.loop body leave next).Fits Γ := by
  refine .intro ⟨nofun, nofun, nofun, nofun⟩ (fun c hc => ?_) nofun
  obtain rfl := List.mem_singleton.mp hc
  exact h

theorem Fits.switch {value : Expr} {arms : List (Arm Node)} {default : Option Node}
    (hreads : ∀ e ∈ value :: arms.flatMap Arm.values, Γ.Reads e)
    (hbodies : ∀ c ∈ arms.map Arm.body ++ default.toList, c.Fits Γ) :
    (Node.switch value arms default).Fits Γ :=
  .intro ⟨hreads, nofun, nofun, nofun⟩ hbodies nofun

theorem Fits.attempt {body : Node} {handlers : List (Handler Node)} {cleanup : Option Node}
    (hparts : ∀ c ∈ body :: cleanup.toList, c.Fits Γ)
    (hhandlers : ∀ h ∈ handlers, h.body.Fits (Γ.inHandler h.binding)) :
    (Node.attempt body handlers cleanup).Fits Γ :=
  .intro ⟨nofun, nofun, nofun, nofun⟩ hparts hhandlers

theorem Fits.nop : Node.nop.Fits Γ :=
  .leaf ⟨nofun, nofun, nofun, nofun⟩ rfl rfl

theorem Fits.eval {e : Expr} (he : Γ.Reads e) : (Node.eval e).Fits Γ := by
  refine .of_reads (fun e' he' => ?_) rfl rfl nofun nofun nofun
  obtain rfl := List.mem_singleton.mp he'
  exact he

theorem fits_jump {l : Label} (hl : Γ.Leads l.id) : (jump l).Fits Γ :=
  .goto (hl.takes none) nofun

/-- A loop that tests first fits if its condition and its body do in the surroundings of a loop. -/
theorem fits_ofLoop {l : Loop} {body : Node} (hcondition : Γ.Reads l.condition)
    (hleave : l.leave.id ≠ Γ.exit.id) (hbody : body.Fits (Γ.around l.leave l.next)) :
    (ofLoop l body).Fits Γ := by
  refine .loop (.branch (hcondition.mono (Γ.le_around l.leave l.next)) hbody (fits_jump ?_))
  exact ⟨.inr (.inl rfl), hleave⟩

theorem fits_disposal {s : Symbol} (hs : Γ.bound s.id) : (disposal s).Fits Γ := by
  have hcall : Γ.Reads (.intrinsic .dispose [.var s]) := by
    refine ⟨rfl, fun t ht => .inr ?_⟩
    obtain rfl := List.mem_singleton.mp ht
    exact hs
  have htest : Γ.Reads (.binary .notEqual (.var s) (.null s.ty)) := by
    refine ⟨rfl, fun t ht => .inr ?_⟩
    obtain rfl := List.mem_singleton.mp ht
    exact hs
  unfold disposal
  dsimp only
  split
  · exact .branch htest (.eval hcall) .nop
  · exact .eval hcall

theorem fits_withCleanup {s : Symbol} {producer : Expr} {body : Node} (hproducer : Γ.Reads producer)
    (hbody : body.Fits (Γ.bind [s])) : (withCleanup s producer body).Fits Γ := by
  have hs : (Γ.bind [s]).bound s.id := .inr ⟨s, List.mem_singleton_self s, rfl⟩
  refine .block fun n hn => ?_
  rcases List.mem_cons.mp hn with rfl | hn
  · exact .assign hs (hproducer.mono (Γ.le_bind [s]))
  · obtain rfl := List.mem_singleton.mp hn
    refine .attempt (fun c hc => ?_) nofun
    rcases List.mem_cons.mp hc with rfl | hc
    · exact hbody
    · obtain rfl := List.mem_singleton.mp hc
      exact fits_disposal hs

theorem fits_ofIteration {iterator : Symbol} {collection : Expr} {walk : Node}
    (hcollection : Γ.Reads collection) (hwalk : walk.Fits (Γ.bind [iterator])) :
    (ofIteration iterator collection walk).Fits Γ := by
  have hproducer : Γ.Reads (.intrinsic .getIterator [collection]) := by
    refine ⟨?_, fun s hs => hcollection.vars s ?_⟩
    · exact (List.append_nil _).trans hcollection.placeholders
    · exact (List.append_nil collection.vars) ▸ hs
  unfold ofIteration
  dsimp only
  split
  · exact fits_withCleanup hproducer hwalk
  · refine .block fun n hn => ?_
    rcases List.mem_cons.mp hn with rfl | hn
    · refine .assign (.inr ⟨iterator, ?_, rfl⟩) (hproducer.mono (Γ.le_bind [iterator]))
      exact List.mem_singleton_self iterator
    · obtain rfl := List.mem_singleton.mp hn
      exact hwalk

theorem fits_ofLinks {links : List (Expr × Node)} {otherwise : Node}
    (hlinks : ∀ link ∈ links, Γ.Reads link.1 ∧ link.2.Fits Γ) (hotherwise : otherwise.Fits Γ) :
    (ofLinks links otherwise).Fits Γ := by
  induction links with
  | nil => exact hotherwise
  | cons link links ih =>
    obtain ⟨htest, hyes⟩ := hlinks link List.mem_cons_self
    exact .branch htest hyes (ih fun l hl => hlinks l (List.mem_cons_of_mem _ hl))

end Node

namespace Block

variable {B : Block}

/-- Where the block of a scope fits, its least node does. -/
theorem fits_collapse (h : B.toNode.Fits Γ) : B.collapse.Fits Γ := by
  obtain ⟨locals, nodes⟩ := B
  unfold collapse
  split
  · exact .nop
  next n heq =>
    cases heq
    exact (h.part (List.mem_singleton_self n)).mono Γ.bind_nil_le
  next heq =>
    cases heq
    exact h

theorem fits_cons {n : Node} (hn : n.Fits (Γ.bind B.locals)) (h : B.toNode.Fits Γ) :
    (B.cons n).toNode.Fits Γ := by
  refine .block fun m hm => ?_
  rcases List.mem_cons.mp hm with rfl | hm
  · exact hn
  · exact h.part hm

theorem fits_empty : Block.empty.toNode.Fits Γ :=
  .block nofun

end Block

namespace Node

/-- A switch fits if its groups do, and jumps to the label before the default's first statement are
taken if an empty group needs one. -/
theorem fits_ofSwitch {value : Expr} {groups : List (Arm Block)} {default : Option (Label × Block)}
    (hvalue : Γ.Reads value) (hvalues : ∀ g ∈ groups, ∀ e ∈ g.values, Γ.Reads e)
    (hgroups : ∀ g ∈ groups, g.body.toNode.Fits Γ) (hdefault : ∀ d ∈ default, d.2.toNode.Fits Γ)
    (hfall : ∀ d ∈ default, groups.any (·.body.isEmpty) = true → Γ.Leads d.1.id) :
    (ofSwitch Block.collapse value groups default).Fits Γ := by
  have hreads : ∀ otherwise,
      ∀ e ∈ value :: (groups.map (ofSwitch.arm Block.collapse otherwise)).flatMap Arm.values,
        Γ.Reads e := by
    intro otherwise e he
    rcases List.mem_cons.mp he with rfl | he
    · exact hvalue
    · obtain ⟨a, ha, he⟩ := List.mem_flatMap.mp he
      obtain ⟨g, hg, rfl⟩ := List.mem_map.mp ha
      exact hvalues g hg e he
  have harms : ∀ otherwise, (groups.any (·.body.isEmpty) = true → otherwise.Fits Γ) →
      ∀ c ∈ (groups.map (ofSwitch.arm Block.collapse otherwise)).map Arm.body, c.Fits Γ := by
    intro otherwise hotherwise c hc
    obtain ⟨a, ha, rfl⟩ := List.mem_map.mp hc
    obtain ⟨g, hg, rfl⟩ := List.mem_map.mp ha
    rw [ofSwitch.arm]
    dsimp only
    split
    next hempty => exact hotherwise (List.any_eq_true.mpr ⟨g, hg, hempty⟩)
    next => exact Block.fits_collapse (hgroups g hg)
  cases default with
  | none =>
    refine .switch (hreads _) fun c hc => ?_
    have hc : c ∈ (groups.map (ofSwitch.arm Block.collapse nop)).map Arm.body ++ [] := hc
    rw [List.append_nil] at hc
    exact harms _ (fun _ => .nop) c hc
  | some d =>
    obtain ⟨fall, body⟩ := d
    refine .switch (hreads _) fun c hc => ?_
    rcases List.mem_append.mp hc with hc | hc
    · exact harms _ (fun hany => fits_jump (hfall _ rfl hany)) c hc
    · obtain rfl := List.mem_singleton.mp hc
      refine Block.fits_collapse ?_
      split
      · exact Block.fits_cons (.label fall none) (hdefault _ rfl)
      · exact hdefault _ rfl

end Node

/-! ## Statements and scopes -/

namespace Stmt

variable {label? : String → Option Label}

/-- What a fitting statement becomes fits, if its blocks do and jumps to the labels of names and to
the labels placed in it are taken. -/
theorem Becomes.fits {t : Stmt Block} {n : Node} (h : t.Becomes label? Block.collapse n)
    (hchecks : t.Checks Γ) (hinner : ∀ p ∈ t.inner Γ, p.2.toNode.Fits p.1)
    (hlabels : ∀ name l, label? name = some l → Γ.Leads l.id)
    (hplaced : ∀ l, n.defines l = true → Γ.targets l) : n.Fits Γ := by
  cases h with
  | node n => exact hchecks.1
  | @goto name l placed => exact Node.fits_jump (hlabels name l placed)
  | conditional links otherwise =>
    refine Node.fits_ofLinks (fun link hlink => ?_) ?_
    · obtain ⟨l, hl, rfl⟩ := List.mem_map.mp hlink
      refine ⟨hchecks l hl, Block.fits_collapse (hinner (Γ, l.2) ?_)⟩
      exact List.mem_map_of_mem (List.mem_append_left _ (List.mem_map_of_mem hl))
    · cases otherwise with
      | none => exact .nop
      | some body =>
        refine Block.fits_collapse (hinner (Γ, body) ?_)
        exact List.mem_map_of_mem (List.mem_append_right _ (List.mem_singleton_self _))
  | loop l body =>
    refine Node.fits_ofLoop hchecks.1 hchecks.2 ?_
    exact Block.fits_collapse (hinner _ (List.mem_singleton_self _))
  | iteration iterator collection l body =>
    refine Node.fits_ofIteration hchecks.1 (Node.fits_ofLoop hchecks.2.1 hchecks.2.2 ?_)
    exact Block.fits_collapse (hinner _ (List.mem_singleton_self _))
  | soleDefault value fall body =>
    exact Block.fits_collapse (hinner (Γ, body) (List.mem_singleton_self _))
  | @switch value groups default nonempty =>
    refine Node.fits_ofSwitch hchecks.1 (fun g hg => ?_) (fun g hg => ?_) (fun d hd => ?_) ?_
    · obtain ⟨g, hmem, rfl⟩ := List.mem_map.mp hg
      exact hchecks.2.1 g hmem
    · obtain ⟨g, hmem, rfl⟩ := List.mem_map.mp hg
      cases hbody : g.body with
      | none => exact Block.fits_empty
      | some body =>
        refine hinner (Γ, body) (List.mem_map_of_mem (List.mem_append_left _ ?_))
        exact List.mem_filterMap.mpr ⟨g, hmem, hbody⟩
    · refine hinner (Γ, d.2) (List.mem_map_of_mem (List.mem_append_right _ ?_))
      exact Option.mem_toList.mpr (Option.mem_map_of_mem Prod.snd hd)
    · intro d hd hany
      obtain rfl := Option.mem_def.mp hd
      refine ⟨?_, hchecks.2.2 d.1 rfl⟩
      refine hplaced _ (Node.defines_of_mem_children ?_ (Block.defines_cons_mark d.1 d.2))
      refine List.mem_append_right _ (Option.mem_toList.mpr ?_)
      rw [if_pos hany]
  | @attempt body handlers cleanup guarded =>
    refine .attempt (fun c hc => ?_) (fun h hh => ?_)
    · rcases List.mem_cons.mp hc with rfl | hc
      · exact Block.fits_collapse (hinner _ List.mem_cons_self)
      · obtain ⟨B, hB, rfl⟩ := Option.map_eq_some_iff.mp (Option.mem_toList.mp hc)
        refine Block.fits_collapse (hinner (Γ, B) (List.mem_cons_of_mem _ ?_))
        exact List.mem_append_right _ (List.mem_map_of_mem (Option.mem_toList.mpr hB))
    · obtain ⟨h, hmem, rfl⟩ := List.mem_map.mp hh
      refine Block.fits_collapse (hinner (Γ.inHandler h.binding, h.body) ?_)
      exact List.mem_cons_of_mem _ (List.mem_append_left _ (List.mem_map.mpr ⟨h, hmem, rfl⟩))
  | resource s producer body =>
    refine Node.fits_withCleanup hchecks ?_
    exact Block.fits_collapse (hinner _ (List.mem_singleton_self _))

/-- What is around the blocks of a statement that became a node was around its scopes. -/
theorem exists_inner_of_map {α : Type} {f : Scope → α} {g : Block → α} {stmt : Stmt Scope}
    {t : Stmt Block} (h : stmt.map f = t.map g) {p : Surroundings × Block} (hp : p ∈ t.inner Γ) :
    ∃ q ∈ stmt.inner Γ, q.1 = p.1 ∧ f q.2 = g p.2 := by
  have hmem : (p.1, g p.2) ∈ (stmt.map f).inner Γ := by
    rw [h, inner_map]
    exact List.mem_map.mpr ⟨p, hp, rfl⟩
  rw [inner_map] at hmem
  obtain ⟨q, hq, heq⟩ := List.mem_map.mp hmem
  exact ⟨q, hq, congrArg Prod.fst heq, congrArg Prod.snd heq⟩

end Stmt

/-- The block of a fitting scope fits, if jumps to the labels of names and to the labels placed in
the block are taken. -/
theorem Scope.fits_of_assemble {label? : String → Option Label} {s : Scope} {B : Block}
    (hs : s.Fits Γ) (h : s.assemble label? Block.collapse = .ok B)
    (hlabels : ∀ name l, label? name = some l → Γ.Leads l.id)
    (hplaced : ∀ l, B.collapse.defines l = true → Γ.targets l) : B.toNode.Fits Γ := by
  induction s using induct generalizing Γ B with
  | step s ih =>
    obtain ⟨hlocals, hall⟩ := assemble_ok h
    refine .block fun n hn => ?_
    rw [hlocals]
    obtain ⟨stmt, hstmt, t, ht, hbecomes⟩ := exists_left_of_forall₂ hall hn
    have hplaced : ∀ l, n.defines l = true → Γ.targets l := by
      intro l hl
      refine hplaced l ?_
      rw [Block.defines_collapse]
      exact List.any_eq_true.mpr ⟨n, hn, hl⟩
    have hlabels : ∀ name l, label? name = some l → (Γ.bind s.frame.locals).Leads l.id :=
      fun name l hl => (hlabels name l hl).mono (Γ.le_bind _)
    refine hbecomes.fits ?_ (fun p hp => ?_) hlabels hplaced
    · have hchecks := (Stmt.checks_map (assemble label? Block.collapse) stmt).mpr (hs.checks hstmt)
      rw [ht] at hchecks
      exact (Stmt.checks_map _ t).mp hchecks
    · obtain ⟨q, hq, hqp, hok⟩ := Stmt.exists_inner_of_map ht hp
      have hle := Stmt.le_inner hq
      have hmem : q.2 ∈ s.children :=
        mem_children.mpr ⟨stmt, hstmt, Stmt.mem_scopes_of_mem_inner hq⟩
      rw [← hqp]
      refine ih q.2 hmem (hs.inner hstmt hq) hok ?_ fun l hl => ?_
      · exact fun name l hl => (hlabels name l hl).mono hle
      · exact hle.targets l (hplaced l (hbecomes.defines (Stmt.mem_scopes_of_mem_inner hp) hl))

/-! ## Artifacts -/

/-- What is around the body of a program: the parameters have values, and the labels placed in the
body are where jumps lead to. -/
def Artifact.surroundings (a : Artifact) (captures : Prop) : Surroundings where
  captures := captures
  exit := a.returnLabel
  bound id := ∃ x ∈ a.params, x.id = id
  targets l := a.body.defines l = true
  handling := False

namespace Builder

/-- The body is what the outermost scope is assembled to, before the place of the return label. -/
theorem assembleWith_ok {b : Builder} {a : Artifact} {close : Block → Node}
    (h : b.assembleWith close = .ok a) :
    a.params = b.params ∧ a.returnLabel = b.returnLabel ∧
      ∃ B, b.top.assemble b.label? close = .ok B ∧
        a.body = .block [] [close B, .label a.returnLabel (Constant.zero? a.returnType)] := by
  obtain ⟨B, hB, h⟩ := Except.andThen_ok.mp h
  cases h
  exact ⟨rfl, rfl, B, hB, rfl⟩

theorem assemble_ok {b : Builder} {a : Artifact} (h : b.assemble = .ok a) :
    a.params = b.params ∧ a.returnLabel = b.returnLabel ∧
      ∃ B, b.top.assemble b.label? Block.collapse = .ok B ∧
        a.body = .block [] [B.collapse, .label a.returnLabel (Constant.zero? a.returnType)] :=
  assembleWith_ok h

/-- The labels that jumps are taken to are placed in the body. -/
theorem defines_of_targets {b : Builder} {a : Artifact} (h : b.assemble = .ok a) {l : LabelId}
    (hl : b.surroundings.targets l) : a.body.defines l = true := by
  obtain ⟨-, hreturn, B, hB, hbody⟩ := assemble_ok h
  rw [hbody]
  rcases hl with rfl | ⟨outer, t, ht, n, hn, hl⟩
  · rw [← hreturn]
    refine Node.defines_of_mem_children (List.mem_cons_of_mem _ (List.mem_singleton_self _)) ?_
    exact beq_self_eq_true _
  · refine Node.defines_of_mem_children List.mem_cons_self ?_
    refine Scope.defines_of_assemble ht hn ?_ hB
    rw [Node.defines_eq, hl, Bool.true_or]

/-- The artifact of a sound builder fits between its parameters and its labels. -/
theorem Sound.fits_of_assemble {b : Builder} {a : Artifact} (hb : b.Sound)
    (h : b.assemble = .ok a) :
    a.body.Fits (a.surroundings (b.options.allowCaptures = true)) := by
  obtain ⟨hparams, hreturn, B, hB, hbody⟩ := assemble_ok h
  have hplaced : ∀ l, B.collapse.defines l = true → a.body.defines l = true := by
    intro l hl
    rw [hbody]
    exact Node.defines_of_mem_children List.mem_cons_self hl
  have hle : b.surroundings ≤ a.surroundings (b.options.allowCaptures = true) := by
    refine ⟨id, hreturn, fun id hid => ?_, fun l => defines_of_targets h, id⟩
    show ∃ x ∈ a.params, x.id = id
    rw [hparams]
    exact hid
  have htop : B.toNode.Fits (a.surroundings (b.options.allowCaptures = true)) := by
    refine Scope.fits_of_assemble (hb.fits.mono hle) hB (fun name l hl => ?_) hplaced
    obtain ⟨hmarks, hinside⟩ := hb.labels l (List.mem_of_find?_eq_some hl)
    refine ⟨hle.targets _ (.inr hmarks), ?_⟩
    show l.id ≠ a.returnLabel.id
    rw [hreturn]
    exact hinside
  rw [hbody]
  refine .block fun n hn => ?_
  rcases List.mem_cons.mp hn with rfl | hn
  · exact (Block.fits_collapse htop).mono (Surroundings.le_bind _ _)
  · obtain rfl := List.mem_singleton.mp hn
    exact .label _ _

end Builder

end StructuredFlow
