import StructuredFlow.Proofs.NodeFits
import StructuredFlow.Proofs.Operations

/-
  Scopes that fit into their surroundings, before they are assembled. What a statement puts around
  a scope of its own is `Stmt.inner`, and a scope fits if its statements ask for no more than the
  surroundings and its variables offer (`Scope.Fits`). Surroundings cover a chain if they offer all
  that a lookup along it can find (`Surroundings.Covers`). A change of one scope keeps the tree
  fitting if the changed scope fits where it stands (`Scope.Fits.update`).
-/

namespace StructuredFlow

variable {Γ Γ' : Surroundings}

namespace Stmt

variable {σ τ : Type}

/-- What a statement asks of its surroundings itself. A node that is a statement of its own has
nothing inside. -/
def Checks (Γ : Surroundings) : Stmt σ → Prop
  | node n => n.Fits Γ ∧ n.children = []
  | goto _ | attempt _ _ _ => True
  | conditional links _ => ∀ l ∈ links, Γ.Reads l.1
  | loop l _ => Γ.Reads l.condition ∧ l.leave.id ≠ Γ.exit.id
  | iteration iterator collection l _ =>
    Γ.Reads collection ∧ (Γ.bind [iterator]).Reads l.condition ∧ l.leave.id ≠ Γ.exit.id
  | switch value groups default =>
    Γ.Reads value ∧ (∀ g ∈ groups, ∀ e ∈ g.values, Γ.Reads e) ∧
      ∀ fall ∈ default.map Prod.fst, fall.id ≠ Γ.exit.id
  | resource _ producer _ => Γ.Reads producer

/-- The scopes of a statement with the surroundings of each. -/
def inner (Γ : Surroundings) : Stmt σ → List (Surroundings × σ)
  | node _ | goto _ => []
  | conditional links otherwise => (links.map Prod.snd ++ otherwise.toList).map (Prod.mk Γ)
  | loop l body => [(Γ.around l.leave l.next, body)]
  | iteration iterator _ l body => [((Γ.bind [iterator]).around l.leave l.next, body)]
  | switch _ groups default =>
    (groups.filterMap Arm.body ++ (default.map Prod.snd).toList).map (Prod.mk Γ)
  | attempt body handlers cleanup =>
    (Γ, body) :: (handlers.map (fun h => (Γ.inHandler h.binding, h.body)) ++
      cleanup.toList.map (Prod.mk Γ))
  | resource symbol _ body => [(Γ.bind [symbol], body)]

theorem map_snd_inner (Γ : Surroundings) (stmt : Stmt σ) :
    (stmt.inner Γ).map Prod.snd = stmt.scopes := by
  cases stmt <;> simp [inner, scopes, Function.comp_def]

theorem mem_scopes_of_mem_inner {stmt : Stmt σ} {p : Surroundings × σ} (h : p ∈ stmt.inner Γ) :
    p.2 ∈ stmt.scopes := by
  rw [← map_snd_inner Γ stmt]
  exact List.mem_map_of_mem h

theorem inner_map (f : σ → τ) (stmt : Stmt σ) :
    (stmt.map f).inner Γ = (stmt.inner Γ).map fun p => (p.1, f p.2) := by
  cases stmt with
  | conditional links otherwise =>
    cases otherwise <;> simp [map, inner, Function.comp_def]
  | switch value groups default =>
    cases default <;> simp [map, inner, Function.comp_def, List.filterMap_map, List.map_filterMap]
  | attempt body handlers cleanup => cases cleanup <;> simp [map, inner, Function.comp_def]
  | _ => simp [map, inner]

theorem checks_map (f : σ → τ) (stmt : Stmt σ) : (stmt.map f).Checks Γ ↔ stmt.Checks Γ := by
  cases stmt with
  | conditional links otherwise => exact List.forall_mem_map
  | switch value groups default =>
    have hdefault : (default.map fun d => (d.1, f d.2)).map Prod.fst = default.map Prod.fst := by
      rw [Option.map_map]
      rfl
    refine and_congr_right fun _ => and_congr List.forall_mem_map ?_
    rw [hdefault]
  | _ => exact Iff.rfl

theorem Checks.mono {stmt : Stmt σ} (h : stmt.Checks Γ) (hle : Γ ≤ Γ') : stmt.Checks Γ' := by
  cases stmt with
  | node n => exact ⟨h.1.mono hle, h.2⟩
  | goto name => trivial
  | conditional links otherwise => exact fun l hl => (h l hl).mono hle
  | loop l body => exact ⟨h.1.mono hle, hle.exit ▸ h.2⟩
  | iteration iterator collection l body =>
    have hbind := Surroundings.bind_mono hle (List.Subset.refl [iterator])
    exact ⟨h.1.mono hle, h.2.1.mono hbind, hle.exit ▸ h.2.2⟩
  | switch value groups default =>
    exact ⟨h.1.mono hle, fun g hg e he => (h.2.1 g hg e he).mono hle, hle.exit ▸ h.2.2⟩
  | attempt body handlers cleanup => trivial
  | resource symbol producer body => exact Surroundings.Reads.mono h hle

/-- Inside of a statement the surroundings offer what they offer outside. -/
theorem le_inner {stmt : Stmt σ} {p : Surroundings × σ} (h : p ∈ stmt.inner Γ) : Γ ≤ p.1 := by
  cases stmt with
  | node n => cases h
  | goto name => cases h
  | conditional links otherwise =>
    obtain ⟨c, -, rfl⟩ := List.mem_map.mp h
    exact Surroundings.le_refl Γ
  | loop l body =>
    obtain rfl := List.mem_singleton.mp h
    exact Γ.le_around _ _
  | iteration iterator collection l body =>
    obtain rfl := List.mem_singleton.mp h
    exact Surroundings.le_trans (Γ.le_bind _) (Surroundings.le_around _ _ _)
  | switch value groups default =>
    obtain ⟨c, -, rfl⟩ := List.mem_map.mp h
    exact Surroundings.le_refl Γ
  | attempt body handlers cleanup =>
    rcases List.mem_cons.mp h with rfl | h
    · exact Surroundings.le_refl Γ
    rcases List.mem_append.mp h with h | h
    · obtain ⟨c, -, rfl⟩ := List.mem_map.mp h
      exact Γ.le_inHandler _
    · obtain ⟨c, -, rfl⟩ := List.mem_map.mp h
      exact Surroundings.le_refl Γ
  | resource symbol producer body =>
    obtain rfl := List.mem_singleton.mp h
    exact Γ.le_bind _

/-- With more around a statement there is more around each of its scopes. -/
theorem inner_mono (hle : Γ ≤ Γ') {stmt : Stmt σ} {p : Surroundings × σ}
    (h : p ∈ stmt.inner Γ') : ∃ q ∈ stmt.inner Γ, q.2 = p.2 ∧ q.1 ≤ p.1 := by
  cases stmt with
  | node n => cases h
  | goto name => cases h
  | conditional links otherwise =>
    obtain ⟨c, hc, rfl⟩ := List.mem_map.mp h
    exact ⟨(Γ, c), List.mem_map_of_mem hc, rfl, hle⟩
  | loop l body =>
    obtain rfl := List.mem_singleton.mp h
    exact ⟨_, List.mem_singleton_self _, rfl, Surroundings.around_mono hle _ _⟩
  | iteration iterator collection l body =>
    obtain rfl := List.mem_singleton.mp h
    have hbind := Surroundings.bind_mono hle (List.Subset.refl [iterator])
    exact ⟨_, List.mem_singleton_self _, rfl, Surroundings.around_mono hbind _ _⟩
  | switch value groups default =>
    obtain ⟨c, hc, rfl⟩ := List.mem_map.mp h
    exact ⟨(Γ, c), List.mem_map_of_mem hc, rfl, hle⟩
  | attempt body handlers cleanup =>
    rcases List.mem_cons.mp h with rfl | h
    · exact ⟨(Γ, body), List.mem_cons_self, rfl, hle⟩
    rcases List.mem_append.mp h with h | h
    · obtain ⟨c, hc, rfl⟩ := List.mem_map.mp h
      refine ⟨(Γ.inHandler c.binding, c.body), ?_, rfl, Surroundings.inHandler_mono hle _⟩
      exact List.mem_cons_of_mem _ (List.mem_append_left _ (List.mem_map.mpr ⟨c, hc, rfl⟩))
    · obtain ⟨c, hc, rfl⟩ := List.mem_map.mp h
      refine ⟨(Γ, c), ?_, rfl, hle⟩
      exact List.mem_cons_of_mem _ (List.mem_append_right _ (List.mem_map_of_mem hc))
  | resource symbol producer body =>
    obtain rfl := List.mem_singleton.mp h
    exact ⟨_, List.mem_singleton_self _, rfl, Surroundings.bind_mono hle (List.Subset.refl _)⟩

end Stmt

namespace Surroundings

/-- The frame's place is the one that its role speaks of, and what is implicit in it is bound. -/
structure Admits (Γ : Surroundings) (fr : Frame) : Prop where
  implicit : ∀ x ∈ fr.implicit, Γ.bound x.id
  loop : ∀ leave next, fr.role = .loopBody leave next → Γ.Leads leave.id ∧ Γ.Leads next.id
  handler : fr.role = .catchBody → Γ.handling

theorem Admits.mono {fr : Frame} (h : Γ.Admits fr) (hle : Γ ≤ Γ') : Γ'.Admits fr where
  implicit x hx := hle.bound _ (h.implicit x hx)
  loop leave next hr := (h.loop leave next hr).imp (·.mono hle) (·.mono hle)
  handler hr := hle.handling (h.handler hr)

/-- The surroundings offer all that is found along the chain. -/
structure Covers (Γ : Surroundings) (captures : Bool) (c : Chain) : Prop where
  captures : captures = true → Γ.captures
  bound : ∀ fr ∈ c, ∀ x ∈ fr.symbols, Γ.bound x.id
  loop : ∀ fr ∈ c, ∀ leave next, fr.role = .loopBody leave next →
    Γ.Leads leave.id ∧ Γ.Leads next.id
  handling : ∀ fr ∈ c, fr.role = .catchBody → Γ.handling

namespace Covers

variable {captures : Bool} {c : Chain}

theorem mono (h : Γ.Covers captures c) (hle : Γ ≤ Γ') : Γ'.Covers captures c where
  captures hc := hle.captures (h.captures hc)
  bound fr hfr x hx := hle.bound _ (h.bound fr hfr x hx)
  loop fr hfr leave next hr := (h.loop fr hfr leave next hr).imp (·.mono hle) (·.mono hle)
  handling fr hfr hr := hle.handling (h.handling fr hfr hr)

/-- A frame that is admitted is covered together with its locals. -/
theorem cons (h : Γ.Covers captures c) {fr : Frame} (hfr : Γ.Admits fr) :
    (Γ.bind fr.locals).Covers captures (fr :: c) where
  captures := h.captures
  bound f hf x hx := by
    rcases List.mem_cons.mp hf with rfl | hf
    · rcases List.mem_append.mp hx with hx | hx
      · exact .inr ⟨x, hx, rfl⟩
      · exact .inl (hfr.implicit x hx)
    · exact .inl (h.bound f hf x hx)
  loop f hf leave next hr := by
    rcases List.mem_cons.mp hf with rfl | hf
    · exact (hfr.mono (Γ.le_bind _)).loop leave next hr
    · exact (h.mono (Γ.le_bind _)).loop f hf leave next hr
  handling f hf hr := by
    rcases List.mem_cons.mp hf with rfl | hf
    · exact hfr.handler hr
    · exact h.handling f hf hr

/-- What is visible along the chain has a value. -/
theorem bound_of_isVisible (h : Γ.Covers captures c) {s : Symbol} (hs : c.isVisible s = true) :
    Γ.bound s.id := by
  obtain ⟨fr, hfr, howns⟩ := List.any_eq_true.mp hs
  obtain ⟨y, hy, hid⟩ := List.any_eq_true.mp howns
  exact beq_iff_eq.mp hid ▸ h.bound fr hfr y hy

/-- An expression that was resolved along the chain reads what the surroundings offer. -/
theorem reads (h : Γ.Covers captures c) {e : Expr} (he : e.Closed (c.context captures)) :
    Γ.Reads e where
  placeholders := he.placeholders
  vars s hs := by
    rcases he.vars s hs with hc | hv | ⟨name, hn⟩
    · exact .inl (h.captures hc)
    · exact .inr (h.bound_of_isVisible hv)
    · exact .inr (h.bound_of_isVisible (Chain.isVisible_of_lookup hn))

/-- The labels of the innermost loop are ones that jumps are taken to. -/
theorem of_loopLabels? (h : Γ.Covers captures c) {leave next : Label}
    (hl : c.loopLabels? = some (leave, next)) : Γ.Leads leave.id ∧ Γ.Leads next.id := by
  obtain ⟨fr, hfr, hrole⟩ := List.exists_of_findSome?_eq_some hl
  refine h.loop fr hfr leave next ?_
  unfold Frame.loopLabels? at hrole
  split at hrole
  next hr =>
    cases hrole
    exact hr
  next => cases hrole

theorem of_inCatch (h : Γ.Covers captures c) (hc : c.inCatch = true) : Γ.handling := by
  obtain ⟨fr, hfr, hrole⟩ := List.any_eq_true.mp hc
  exact h.handling fr hfr (beq_iff_eq.mp hrole)

end Covers

end Surroundings

namespace Scope

/-- The statements of a scope, and of all scopes in it, ask for nothing but what their surroundings
offer. -/
inductive Fits : Surroundings → Scope → Prop
  | intro {Γ : Surroundings} {s : Scope} (frame : Γ.Admits s.frame)
      (checks : ∀ stmt ∈ s.stmts, stmt.Checks (Γ.bind s.frame.locals))
      (inner : ∀ stmt ∈ s.stmts, ∀ p ∈ stmt.inner (Γ.bind s.frame.locals), Fits p.1 p.2) : Fits Γ s

namespace Fits

variable {s root : Scope}

theorem frame (h : s.Fits Γ) : Γ.Admits s.frame := by
  cases h with
  | intro frame => exact frame

theorem checks (h : s.Fits Γ) {stmt : Stmt Scope} (hs : stmt ∈ s.stmts) :
    stmt.Checks (Γ.bind s.frame.locals) := by
  cases h with
  | intro _ checks => exact checks stmt hs

theorem inner (h : s.Fits Γ) {stmt : Stmt Scope} (hs : stmt ∈ s.stmts) {p : Surroundings × Scope}
    (hp : p ∈ stmt.inner (Γ.bind s.frame.locals)) : p.2.Fits p.1 := by
  cases h with
  | intro _ _ inner => exact inner stmt hs p hp

/-- A scope directly inside fits where its statement puts it. -/
theorem exists_inner (h : s.Fits Γ) {c : Scope} (hc : c ∈ s.children) :
    ∃ stmt ∈ s.stmts, ∃ Γ', (Γ', c) ∈ stmt.inner (Γ.bind s.frame.locals) ∧ c.Fits Γ' := by
  obtain ⟨stmt, hstmt, hcs⟩ := mem_children.mp hc
  rw [← Stmt.map_snd_inner (Γ.bind s.frame.locals)] at hcs
  obtain ⟨q, hq, rfl⟩ := List.mem_map.mp hcs
  exact ⟨stmt, hstmt, q.1, hq, h.inner hstmt hq⟩

theorem mono (h : s.Fits Γ) (hle : Γ ≤ Γ') : s.Fits Γ' := by
  induction h generalizing Γ' with
  | @intro Γ s frame checks inner ih =>
    have hbind := Surroundings.bind_mono hle (List.Subset.refl s.frame.locals)
    refine .intro (frame.mono hle) (fun stmt hs => (checks stmt hs).mono hbind) ?_
    intro stmt hs p hp
    obtain ⟨q, hq, hqp, hle'⟩ := Stmt.inner_mono hbind hp
    exact hqp ▸ ih stmt hs q hq hle'

/-- A scope with nothing in it fits where its frame is admitted. -/
theorem of_frame (h : Γ.Admits s.frame) (hstmts : s.stmts = []) : s.Fits Γ := by
  refine .intro h (fun stmt hs => ?_) (fun stmt hs => ?_)
  · rw [hstmts] at hs
    exact absurd hs List.not_mem_nil
  · rw [hstmts] at hs
    exact absurd hs List.not_mem_nil

/-- A change of one scope keeps the tree fitting if the changed scope fits where it stands. -/
theorem update {captures : Bool} {c : Chain} {id : ScopeId} {f : Scope → Scope}
    (hroot : root.Distinct) (h : root.Fits Γ) (hc : Γ.Covers captures c)
    (hf : ∀ Γ' outer s, Within root outer s → s.frame.id = id → s.Fits Γ' → Γ ≤ Γ' →
      Γ'.Covers captures (outer ++ c) → (f s).Fits Γ') :
    (root.update id f).Fits Γ := by
  induction root using induct generalizing Γ c with
  | step root ih =>
    by_cases hid : root.frame.id = id
    · rw [hroot.update_eq hid]
      exact hf Γ [] root .here hid h (Surroundings.le_refl Γ) hc
    · have hcons := hc.cons h.frame
      rw [update_eq, if_neg hid]
      refine .intro h.frame (fun stmt hs => ?_) (fun stmt hs p hp => ?_)
      · obtain ⟨old, hold, rfl⟩ := List.mem_map.mp hs
        exact (Stmt.checks_map _ old).mpr (h.checks hold)
      · obtain ⟨old, hold, rfl⟩ := List.mem_map.mp hs
        rw [Stmt.inner_map] at hp
        obtain ⟨q, hq, rfl⟩ := List.mem_map.mp hp
        have hmem : q.2 ∈ root.children :=
          mem_children.mpr ⟨old, hold, Stmt.mem_scopes_of_mem_inner hq⟩
        have hle := Stmt.le_inner hq
        refine ih q.2 hmem (hroot.child hmem) (h.inner hold hq) (hcons.mono hle) ?_
        intro Γ' outer s hs hid hfits hΓ' hcover
        refine hf Γ' (outer ++ [root.frame]) s (hs.of_child hmem) hid hfits ?_ ?_
        · exact Surroundings.le_trans (Surroundings.le_trans (Γ.le_bind _) hle) hΓ'
        · rwa [List.append_assoc]

end Fits

/-! ## Labels placed in a scope -/

/-- Some scope of the tree has a node at its top that marks the label. -/
def Marks (s : Scope) (l : LabelId) : Prop :=
  ∃ outer t, Within s outer t ∧ ∃ n, Stmt.node n ∈ t.stmts ∧ n.marks l = true

namespace Marks

variable {root s : Scope} {outer : Chain} {l : LabelId} {f : Scope → Scope}

theorem of_within (hs : Within root outer s) (h : s.Marks l) : root.Marks l := by
  obtain ⟨inner, t, ht, hn⟩ := h
  exact ⟨_, t, hs.trans ht, hn⟩

/-- A change that keeps the nodes and the scopes of a scope keeps all marks. -/
theorem update (hroot : root.Distinct) (hs : Within root outer s)
    (hkeep : ∀ c ∈ s.children, c ∈ (f s).children)
    (hnodes : ∀ n, Stmt.node n ∈ s.stmts → Stmt.node n ∈ (f s).stmts) (h : root.Marks l) :
    (root.update s.frame.id f).Marks l := by
  obtain ⟨o, t, ht, n, hn, hl⟩ := h
  refine ⟨_, _, Within.update hroot hs rfl hkeep ht, n, ?_, hl⟩
  by_cases hid : t.frame.id = s.frame.id
  · obtain ⟨-, rfl⟩ := ht.unique hroot hs hid
    rw [(ht.distinct hroot).update_eq rfl]
    exact hnodes n hn
  · rw [stmts_update_of_ne hid]
    exact List.mem_map.mpr ⟨_, hn, rfl⟩

end Marks

end Scope

end StructuredFlow
