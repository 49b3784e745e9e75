import StructuredFlow.Proofs.AssembledPlaces
import StructuredFlow.Proofs.ContinuationsAgree

/-
  Where jumps land. A program without constructs that guard is assembled to nodes without guarded
  regions (`Builder.unguarded_of_assemble`). So with enough steps it gives what the continuations
  say: a jump from anywhere goes on with the continuation of its label, and evaluates nothing on
  the way in (`Builder.Reachable.jumps_land`).
-/

namespace StructuredFlow

variable {ω : Type}

/-! ## Programs without guarded regions -/

namespace Node

variable {n : Node}

theorem Unguarded.of_children (hn : ∀ body handlers cleanup, n ≠ attempt body handlers cleanup)
    (h : ∀ c ∈ n.children, c.Unguarded) : n.Unguarded := by
  intro body handlers cleanup hmem
  rcases mem_subnodes_iff.mp hmem with hroot | ⟨c, hc, hmem⟩
  · exact hn body handlers cleanup hroot.symm
  · exact h c hc body handlers cleanup hmem

theorem Unguarded.of_leaf (h : n.children = []) : n.Unguarded := by
  refine .of_children (fun body handlers cleanup hn => ?_) (h ▸ nofun)
  rw [hn] at h
  cases h

theorem unguarded_ofLinks {links : List (Expr × Node)} {otherwise : Node}
    (hlinks : ∀ link ∈ links, link.2.Unguarded) (hotherwise : otherwise.Unguarded) :
    (ofLinks links otherwise).Unguarded := by
  induction links with
  | nil => exact hotherwise
  | cons link links ih =>
    refine .of_children nofun (List.forall_mem_cons.mpr ⟨hlinks link List.mem_cons_self, ?_⟩)
    exact List.forall_mem_singleton.mpr (ih fun l hl => hlinks l (List.mem_cons_of_mem _ hl))

theorem unguarded_switch {value : Expr} {arms : List (Arm Node)} {default : Option Node}
    (h : ∀ c ∈ arms.map Arm.body ++ default.toList, c.Unguarded) :
    (switch value arms default).Unguarded :=
  .of_children (fun _ _ _ hswitch => Node.noConfusion hswitch) h

theorem unguarded_ofLoop {l : Loop} {body : Node} (h : body.Unguarded) :
    (ofLoop l body).Unguarded := by
  refine .of_children nofun (List.forall_mem_singleton.mpr (.of_children nofun ?_))
  exact List.forall_mem_cons.mpr ⟨h, List.forall_mem_singleton.mpr (.of_leaf rfl)⟩

end Node

namespace Block

variable {B : Block}

theorem unguarded_collapse (h : ∀ n ∈ B.nodes, n.Unguarded) : B.collapse.Unguarded := by
  obtain ⟨locals, nodes⟩ := B
  unfold collapse
  split
  · exact .of_leaf rfl
  next n heq =>
    cases heq
    exact h n (List.mem_singleton_self n)
  next heq =>
    cases heq
    exact .of_children nofun h

end Block

namespace Node

theorem unguarded_ofSwitch {value : Expr} {groups : List (Arm Block)}
    {default : Option (Label × Block)} (hgroups : ∀ g ∈ groups, ∀ n ∈ g.body.nodes, n.Unguarded)
    (hdefault : ∀ d ∈ default, ∀ n ∈ d.2.nodes, n.Unguarded) :
    (ofSwitch Block.collapse value groups default).Unguarded := by
  have harms : ∀ otherwise : Node, otherwise.Unguarded →
      ∀ c ∈ (groups.map (ofSwitch.arm Block.collapse otherwise)).map Arm.body, c.Unguarded := by
    intro otherwise hotherwise c hc
    obtain ⟨a, ha, rfl⟩ := List.mem_map.mp hc
    obtain ⟨g, hg, rfl⟩ := List.mem_map.mp ha
    rw [ofSwitch.arm]
    dsimp only
    split
    · exact hotherwise
    · exact Block.unguarded_collapse (hgroups g hg)
  cases default with
  | none =>
    refine unguarded_switch fun c hc => ?_
    rcases List.mem_append.mp hc with hc | hc
    · exact harms _ (.of_leaf rfl) c hc
    · exact absurd hc List.not_mem_nil
  | some d =>
    refine unguarded_switch fun c hc => ?_
    rcases List.mem_append.mp hc with hc | hc
    · exact harms _ (.of_leaf rfl) c hc
    · obtain rfl := List.mem_singleton.mp hc
      refine Block.unguarded_collapse ?_
      split
      · exact List.forall_mem_cons.mpr ⟨.of_leaf rfl, hdefault d rfl⟩
      · exact hdefault d rfl

end Node

namespace Stmt

variable {σ τ : Type} {label? : String → Option Label}

/-- The statement is a construct that guards a region, or may be assembled with one: a resource and
an iterator are disposed of. -/
def guards : Stmt σ → Bool
  | attempt _ _ _ | iteration _ _ _ _ | resource _ _ _ => true
  | node _ | goto _ | conditional _ _ | loop _ _ | switch _ _ _ => false

theorem guards_map (f : σ → τ) (stmt : Stmt σ) : (stmt.map f).guards = stmt.guards := by
  cases stmt <;> rfl

theorem Becomes.unguarded {Γ : Surroundings} {t : Stmt Block} {n : Node}
    (h : t.Becomes label? Block.collapse n) (ht : t.guards = false) (hchecks : t.Checks Γ)
    (hblocks : ∀ B ∈ t.scopes, ∀ n ∈ B.nodes, n.Unguarded) : n.Unguarded := by
  cases h with
  | node n => exact .of_leaf hchecks.2
  | goto placed => exact .of_leaf rfl
  | conditional links otherwise =>
    refine Node.unguarded_ofLinks (fun link hlink => ?_) ?_
    · obtain ⟨l, hl, rfl⟩ := List.mem_map.mp hlink
      exact Block.unguarded_collapse (hblocks l.2 (List.mem_append_left _ (List.mem_map_of_mem hl)))
    · cases otherwise with
      | none => exact .of_leaf rfl
      | some body =>
        refine Block.unguarded_collapse (hblocks body ?_)
        exact List.mem_append_right _ (List.mem_singleton_self _)
  | loop l body =>
    exact Node.unguarded_ofLoop
      (Block.unguarded_collapse (hblocks body (List.mem_singleton_self _)))
  | soleDefault value fall body =>
    exact Block.unguarded_collapse (hblocks body (List.mem_singleton_self _))
  | @switch value groups default nonempty =>
    refine Node.unguarded_ofSwitch (fun g hg => ?_) (fun d hd => hblocks d.2 ?_)
    · obtain ⟨g, hmem, rfl⟩ := List.mem_map.mp hg
      cases hbody : g.body with
      | none => exact nofun
      | some body =>
        refine hblocks body (List.mem_append_left _ ?_)
        exact List.mem_filterMap.mpr ⟨g, hmem, hbody⟩
    · refine List.mem_append_right _ (Option.mem_toList.mpr ?_)
      exact Option.mem_map_of_mem Prod.snd hd
  | iteration | attempt | resource => cases ht

end Stmt

/-- No statement of the program guards. -/
def Builder.Unguarded (b : Builder) : Prop :=
  ∀ s ∈ b.top.subscopes, ∀ stmt ∈ s.stmts, stmt.guards = false

theorem Scope.unguarded_of_assemble {Γ : Surroundings} {label? : String → Option Label} {s : Scope}
    {B : Block} (hs : s.Fits Γ) (hplain : ∀ t ∈ s.subscopes, ∀ stmt ∈ t.stmts, stmt.guards = false)
    (h : s.assemble label? Block.collapse = .ok B) : ∀ n ∈ B.nodes, n.Unguarded := by
  induction s using induct generalizing Γ B with
  | step s ih =>
    obtain ⟨-, hall⟩ := assemble_ok h
    intro n hn
    obtain ⟨stmt, hstmt, t, ht, hbecomes⟩ := exists_left_of_forall₂ hall hn
    rw [subscopes_eq] at hplain
    have hguards : t.guards = false := by
      rw [← Stmt.guards_map (Except.ok : Block → Assembled Block), ← ht, Stmt.guards_map]
      exact hplain s List.mem_cons_self stmt hstmt
    have hchecks := (Stmt.checks_map (assemble label? Block.collapse) stmt).mpr (hs.checks hstmt)
    rw [ht] at hchecks
    refine hbecomes.unguarded hguards ((Stmt.checks_map _ t).mp hchecks) fun C hC => ?_
    obtain ⟨p, hp, rfl⟩ : ∃ p ∈ t.inner (Γ.bind s.frame.locals), p.2 = C := by
      rw [← Stmt.map_snd_inner (Γ.bind s.frame.locals)] at hC
      exact List.mem_map.mp hC
    obtain ⟨q, hq, -, hok⟩ := Stmt.exists_inner_of_map ht hp
    have hmem : q.2 ∈ s.children :=
      mem_children.mpr ⟨stmt, hstmt, Stmt.mem_scopes_of_mem_inner hq⟩
    refine ih q.2 hmem (hs.inner hstmt hq) (fun u hu => hplain u ?_) hok
    exact List.mem_cons_of_mem _ (List.mem_flatMap.mpr ⟨q.2, hmem, hu⟩)

theorem Builder.unguarded_of_assemble {b : Builder} {a : Artifact} (hb : b.Sound)
    (hplain : b.Unguarded) (ha : b.assemble = .ok a) : a.body.Unguarded := by
  obtain ⟨-, -, B, hB, hbody⟩ := assemble_ok ha
  rw [hbody]
  refine .of_children nofun (List.forall_mem_cons.mpr ⟨?_, ?_⟩)
  · exact Block.unguarded_collapse (Scope.unguarded_of_assemble hb.fits hplain hB)
  · exact List.forall_mem_singleton.mpr (.of_leaf rfl)

/-! ## What a program gives -/

namespace Point

variable {program : Node} {s f : State ω} {j : Nat}

/-- There are no steps from an end. -/
theorem Advances.eq_of_conclusion (h : Advances program s j f) (hs : (conclusion? s).isSome) :
    f = s := by
  cases h with
  | refl => rfl
  | @step p m i s running later =>
    cases p with
    | start n k => cases hs
    | finish v k =>
      cases k with
      | nil => cases running
      | cons rest k => cases hs

/-- With a report that is no jump the point has come to an end, and it says what the program gives. -/
theorem conclusion?_ofReport (a : Artifact) {r : Report ω}
    (hjump : ∀ l v m, r ≠ .ok (.jump l v) m) (hcaught : ∀ v m, r ≠ .error (.thrown v) m) :
    conclusion? (ofReport a.body [] r) = some (a.conclude r) := by
  cases r with
  | ok flow m =>
    cases flow with
    | normal v => rfl
    | jump l v => exact absurd rfl (hjump l v m)
    | throw v => rfl
  | error e m =>
    cases e with
    | thrown v => exact absurd rfl (hcaught v m)
    | _ => rfl

end Point

open Point

namespace Builder

variable {b : Builder} {a : Artifact}

/-- No turn of a program comes to a jump out of the body. -/
theorem Reachable.ends_no_jump (hb : b.Reachable) (ha : b.assemble = .ok a) {args : List Value}
    {m : Machine ω} {k : Nat} {r : Report ω} (h : (Turn.tail (a.entry args m)).Ends k r)
    (l : LabelId) (v : Option Value) (m' : Machine ω) : r ≠ .ok (.jump l v) m' := by
  rintro rfl
  cases h with
  | tail inner => exact hb.body_ends ha _ _ _ _ _ _ inner.execWithin_eq

/-- A program without guarded regions gives, with enough steps, what its account by continuations
comes to. -/
theorem Reachable.jumps_land (hb : b.Reachable) (hplain : b.Unguarded) (ha : b.assemble = .ok a)
    (args : List Value) (m : Machine ω) (r : EStateM.Result EvalError (Machine ω) Value) :
    a.Yields args m r ↔ a.Reaches args m r := by
  by_cases hlen : args.length = a.params.length
  · have hroot := hb.built.placed.places_nodup Block.closes_collapse ha
    have hplain := unguarded_of_assemble hb.built.sound hplain ha
    have hsits : (Turn.tail (a.entry args m)).Sits a.body [] [] := .tail .here nofun nofun
    have hends : ∀ {k report}, (Turn.tail (a.entry args m)).Ends k report →
        conclusion? (ofReport a.body [] report) = some (a.conclude report) ∧
          ∃ i, Advances a.body (.ok (.start a.body []) (m.prepare a.params args)) i
            (ofReport a.body [] report) := by
      intro k report h
      obtain ⟨⟨i, hi, -⟩, hcaught⟩ := h.advances hroot hplain hsits
      exact ⟨conclusion?_ofReport a (hb.ends_no_jump ha h) hcaught, i, hi⟩
    rw [Artifact.yields_iff hlen]
    constructor
    · rintro ⟨k, report, h, rfl⟩
      obtain ⟨hconclusion, i, hi⟩ := hends h
      exact .ended hlen hi hconclusion
    · rintro (hne | @⟨j, f, r, -, walk, conclusion⟩)
      · exact absurd hlen hne
      have hf : (conclusion? f).isSome := by rw [conclusion]; rfl
      obtain ⟨k, report, h⟩ := hsits.ends hroot hplain hf walk
      obtain ⟨hconclusion, i, hi⟩ := hends h
      obtain ⟨j', -, hj'⟩ := hi.split walk hf
      have hreport : f = ofReport a.body [] report :=
        hj'.eq_of_conclusion (by rw [hconclusion]; rfl)
      rw [hreport, hconclusion] at conclusion
      exact ⟨k, report, h, congrArg _ (Option.some.inj conclusion)⟩
  · rw [Artifact.yields_of_length_ne hlen]
    constructor
    · rintro rfl
      exact .refused hlen
    · rintro (hne | ⟨length, -, -⟩)
      · rfl
      · exact absurd length hlen

/-- A jump into a loop that would not be entered: its condition is false, and is not evaluated. -/
theorem jumps_land_in_loop :
    ∃ (b : Builder) (a : Artifact) (m : Machine Unit), b.Reachable ∧ b.Unguarded ∧
      b.assemble = .ok a ∧ a.Reaches [] m (.ok (.int 5) (m.prepare [] [])) ∧
        a.Yields [] m (.ok (.int 5) (m.prepare [] [])) := by
  obtain ⟨b, hb⟩ : ∃ b, Builder.create ⟨"f", false⟩ [] .int = .ok b := ⟨_, rfl⟩
  have hgoto := (Reachable.create hb).statement 0 (.goto "inside")
  have hloop := hgoto.opening 0 (.whileTest ⟨[], .const (.bool false)⟩)
  have hlabel := hloop.statement 1 (.label "inside")
  have hreturn := hlabel.statement 1 (.returnValue .int ⟨[], .const (.int 5)⟩)
  cases hb
  let a : Artifact := ⟨"f", [], .typed 0 .int, .block []
    [.block [] [.jump (.named 4 "inside"),
      .loop (.branch (.const (.bool false))
          (.block [] [.mark (.named 4 "inside"), .goto (.typed 0 .int) (some (.const (.int 5)))])
          (.jump (.internal 2)))
        (.internal 2) (.internal 1)],
      .label (.typed 0 .int) (some (.int 0))]⟩
  obtain ⟨b, hb, hplain, ha⟩ : ∃ b : Builder, b.Reachable ∧ b.Unguarded ∧ b.assemble = .ok a := by
    refine ⟨_, hreturn, ?_, rfl⟩
    unfold Builder.Unguarded
    decide
  let m : Machine Unit := .new .empty () 0
  have hreaches : a.Reaches [] m (.ok (.int 5) (m.prepare [] [])) := by
    refine .ended rfl (i := 8) (s := .ok (.finish (.int 5) []) (m.prepare [] [])) ?_ rfl
    exact .step rfl (.step rfl (.step rfl (.step rfl (.step rfl (.step rfl (.step rfl
      (.step rfl .refl)))))))
  exact ⟨b, a, m, hb, hplain, ha, hreaches, (hb.jumps_land hplain ha [] m _).mpr hreaches⟩

end Builder

end StructuredFlow
