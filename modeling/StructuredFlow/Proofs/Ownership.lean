import Mathlib.Data.List.Flatten
import Mathlib.Order.WellFounded
import StructuredFlow.Proofs.NamesStable
import StructuredFlow.Proofs.Sites

/-
  Who holds a scope. A construct has slots for scopes (`Slot`), and a filled slot owns the number of
  the scope in it (`Scope.owners`). The owned numbers of a builder are all that were given out but
  that of the outermost scope, each once, and no slot owns two (`Built.owners_perm`,
  `Numbered.owner_unique`). A scope has a greater number than the scope around it
  (`Built.rising`): numbers fall on the way outwards and rise on the way inwards below a bound, so
  every recursion along them ends.
-/

namespace StructuredFlow

/-- A place for a scope in a construct; the tests of a conditional, the groups of a switch and the
handlers of a guarded region are counted. -/
inductive Slot where
  | link (k : Nat)
  | otherwise
  | loopBody
  | iterationBody
  | group (k : Nat)
  | default
  | guarded
  | handler (k : Nat)
  | cleanup
  | resourceBody
deriving DecidableEq, Repr

/-- A slot of the construct at a site. -/
structure Owner where
  site : Site
  slot : Slot
deriving DecidableEq, Repr

namespace Slot

variable {σ : Type} {mk : Nat → Slot} {k : Nat} {xs : List (Option σ)} {slot : Slot} {c : σ}

/-- The counted slots of a construct from the given number on, as far as they are filled. -/
def filled (mk : Nat → Slot) : Nat → List (Option σ) → List (Slot × σ)
  | _, [] => []
  | k, none :: rest => filled mk (k + 1) rest
  | k, some c :: rest => (mk k, c) :: filled mk (k + 1) rest

theorem map_snd_filled : (filled mk k xs).map Prod.snd = xs.filterMap fun x => x := by
  induction xs generalizing k with
  | nil => rfl
  | cons x xs ih =>
    cases x with
    | none => exact ih
    | some c => exact congrArg (c :: ·) ih

end Slot

namespace Stmt

variable {σ : Type}

/-- The filled slots of a statement, each with the scope in it. -/
def slots : Stmt σ → List (Slot × σ)
  | node _ | goto _ => []
  | conditional links otherwise =>
    Slot.filled .link 0 (links.map fun l => some l.2) ++ otherwise.toList.map (.otherwise, ·)
  | loop _ body => [(.loopBody, body)]
  | iteration _ _ _ body => [(.iterationBody, body)]
  | switch _ groups default =>
    Slot.filled .group 0 (groups.map Arm.body) ++ default.toList.map fun d => (.default, d.2)
  | attempt body handlers cleanup =>
    (.guarded, body) :: (Slot.filled .handler 0 (handlers.map fun h => some h.body) ++
      cleanup.toList.map (.cleanup, ·))
  | resource _ _ body => [(.resourceBody, body)]

/-- The slots hold the scopes of the statement. -/
theorem map_snd_slots (s : Stmt σ) : s.slots.map Prod.snd = s.scopes := by
  have some_all {α : Type} (f : α → σ) (xs : List α) :
      (xs.map fun x => some (f x)).filterMap (fun x => x) = xs.map f := by
    rw [List.filterMap_map]
    exact congrFun List.filterMap_eq_map xs
  cases s with
  | conditional links otherwise =>
    rw [slots, scopes, List.map_append, Slot.map_snd_filled, some_all, List.map_map]
    exact congrArg _ (List.map_id _)
  | switch value groups default =>
    rw [slots, scopes, List.map_append, Slot.map_snd_filled, List.filterMap_map, List.map_map]
    cases default <;> rfl
  | attempt body handlers cleanup =>
    rw [slots, scopes, List.map_cons, List.map_append, Slot.map_snd_filled, some_all, List.map_map]
    exact congrArg (body :: _ ++ ·) (List.map_id _)
  | _ => rfl

theorem mem_scopes_of_mem_slots {s : Stmt σ} {slot : Slot} {c : σ} (h : (slot, c) ∈ s.slots) :
    c ∈ s.scopes :=
  s.map_snd_slots ▸ List.mem_map_of_mem h

theorem exists_slot_of_mem_scopes {s : Stmt σ} {c : σ} (h : c ∈ s.scopes) :
    ∃ slot, (slot, c) ∈ s.slots := by
  rw [← map_snd_slots] at h
  obtain ⟨⟨slot, _⟩, hmem, rfl⟩ := List.mem_map.mp h
  exact ⟨slot, hmem⟩

end Stmt

namespace Scope

variable {root s : Scope} {id : ScopeId} {o : Owner}

/-- The numbers that the statements of a scope itself own. -/
def holds (s : Scope) : List (ScopeId × Owner) :=
  s.stmts.zipIdx.flatMap fun p => p.1.slots.map fun q => (q.2.frame.id, ⟨⟨s.frame.id, p.2⟩, q.1⟩)

/-- The numbers that are owned in a tree, each with the slot that owns it. -/
def owners (s : Scope) : List (ScopeId × Owner) :=
  s.subscopes.flatMap holds

theorem owners_eq (s : Scope) : s.owners = s.holds ++ s.children.flatMap owners := by
  rw [owners, subscopes_eq, List.flatMap_cons, List.flatMap_assoc]
  rfl

theorem map_fst_holds (s : Scope) :
    s.holds.map Prod.fst = s.children.map fun c => c.frame.id := by
  rw [holds, children, List.map_flatMap, List.map_flatMap]
  conv_rhs => rw [← List.zipIdx_map_fst 0 s.stmts, List.flatMap_map]
  refine List.flatMap_congr fun p _ => ?_
  rw [← Stmt.map_snd_slots, List.map_map, List.map_map]
  rfl

/-- The owned numbers are those of all scopes in the tree but the outermost one. -/
theorem owners_perm (s : Scope) : (s.owners.map Prod.fst).Perm (s.children.flatMap ids) := by
  induction s using induct with
  | step s ih =>
    rw [owners_eq, List.map_append, map_fst_holds, List.map_flatMap]
    have inside : (s.children.flatMap fun c => c.owners.map Prod.fst).Perm
        (s.children.flatMap fun c => c.children.flatMap ids) :=
      List.Perm.flatMap_left _ ih
    refine (inside.append_left _).trans ?_
    have hids : (fun c : Scope => c.frame.id :: c.children.flatMap ids) = ids :=
      funext fun c => (ids_eq c).symm
    exact (List.map_append_flatMap_perm _ _ _).trans
      (.of_eq (congrArg (fun f => s.children.flatMap f) hids))

theorem Distinct.children_nodup (h : s.Distinct) : (s.children.map fun c => c.frame.id).Nodup := by
  rw [Distinct, ids_eq, List.nodup_cons] at h
  have howned := s.owners_perm.nodup_iff.mpr h.2
  rw [owners_eq, List.map_append, map_fst_holds, List.nodup_append] at howned
  exact howned.1

theorem mem_owners :
    (id, o) ∈ root.owners ↔
      ∃ outer s, Within root outer s ∧ s.frame.id = o.site.scope ∧
        ∃ stmt, s.stmts[o.site.index]? = some stmt ∧
          ∃ c, (o.slot, c) ∈ stmt.slots ∧ c.frame.id = id := by
  simp only [owners, holds, List.mem_flatMap, List.mem_map, mem_subscopes_iff]
  constructor
  · rintro ⟨s, ⟨outer, place⟩, ⟨stmt, i⟩, hstmt, ⟨slot, c⟩, hc, heq⟩
    obtain ⟨rfl, rfl⟩ := Prod.mk.inj heq
    exact ⟨outer, s, place, rfl, stmt, List.mem_zipIdx_iff_getElem?.mp hstmt, c, hc, rfl⟩
  · rintro ⟨outer, s, place, hid, stmt, hstmt, c, hc, rfl⟩
    refine ⟨s, ⟨outer, place⟩, (stmt, o.site.index), List.mem_zipIdx_iff_getElem?.mpr hstmt,
      (o.slot, c), hc, ?_⟩
    rw [hid]

/-- Every scope has a greater number than the one around it. -/
def Rising (root : Scope) : Prop :=
  ∀ fr outer s, Within root (fr :: outer) s → fr.id < s.frame.id

/-- Numbers rise after a change that keeps the number of the scope and brings in scopes with greater
ones and nothing in them. -/
theorem Rising.update {f : Scope → Scope} {outer : Chain} (h : root.Rising)
    (hdistinct : root.Distinct) (place : root.Within outer s)
    (hframe : (f s).frame.id = s.frame.id)
    (hnew : ∀ c ∈ (f s).children, c ∉ s.children → c.children = [] ∧ s.frame.id < c.frame.id) :
    (root.update s.frame.id f).Rising := by
  have swapped : ∀ fr : Frame, (swapFrame s.frame.id (f s).frame fr).id = fr.id := by
    intro fr
    rw [swapFrame]
    split
    next hid => exact hframe.trans hid.symm
    next => rfl
  intro fr around t ht
  rcases Within.of_update hdistinct place rfl ht with
    ⟨around', u, hu, haround, rfl⟩ | ⟨c, hc, hold, inner, haround, hin⟩
  · cases around' with
    | nil => cases haround
    | cons fr' around' =>
      obtain ⟨rfl, rfl⟩ := List.cons.inj haround
      rw [swapped, Within.frame_update hdistinct place rfl hu, swapped]
      exact h fr' around' u hu
  · -- The scope is the new one itself, since that has nothing in it.
    obtain ⟨leaf, hlt⟩ := hnew c hc hold
    rcases hin.cases_root with ⟨rfl, rfl⟩ | ⟨d, hd, -⟩
    · obtain ⟨rfl, -⟩ := List.cons.inj haround
      exact hframe.symm ▸ hlt
    · rw [leaf] at hd
      exact absurd hd List.not_mem_nil

end Scope

namespace Builder

variable {F : Fragment → Prop} {b b' : Builder} {c : Chain} {id : ScopeId} {o : Owner}

/-- A new scope has nothing in it, and the next number. -/
theorem NewScopes.next {extra : List Scope} (h : b.NewScopes c b' extra) {n : Scope}
    (hn : n ∈ extra) : n.children = [] ∧ n.frame.id = b.scopeCount := by
  cases h with
  | none => exact absurd hn List.not_mem_nil
  | bare id leaf => exact List.mem_singleton.mp hn ▸ ⟨leaf, id⟩
  | named id leaf => exact List.mem_singleton.mp hn ▸ ⟨leaf, id⟩

/-- The numbers that slots of the builder own. -/
def owners (b : Builder) : List (ScopeId × Owner) :=
  b.top.owners

/-- A scope owns another one if a slot of a statement in it does. -/
def Owns (b : Builder) (id child : ScopeId) : Prop :=
  ∃ o, (child, o) ∈ b.owners ∧ o.site.scope = id

/-- An owner is a filled slot of the statement at its site. -/
theorem Numbered.mem_owners (h : b.Numbered) :
    (id, o) ∈ b.owners ↔
      ∃ stmt c, b.at? o.site = some stmt ∧ (o.slot, c) ∈ stmt.slots ∧ c.frame.id = id := by
  rw [owners, Scope.mem_owners]
  constructor
  · rintro ⟨outer, s, place, hid, stmt, hstmt, c, hc, hcid⟩
    have hat := at?_of_within h.distinct place o.site.index
    rw [hid] at hat
    exact ⟨stmt, c, hat.trans hstmt, hc, hcid⟩
  · rintro ⟨stmt, c, hat, hc, hcid⟩
    obtain ⟨outer, s, place, hid, hstmt⟩ := exists_of_at? hat
    exact ⟨outer, s, place, hid, stmt, hstmt, c, hc, hcid⟩

/-- The numbers given out are those of the scopes. -/
theorem Built.mem_ids (h : b.Built F) : id ∈ b.top.ids ↔ id < b.scopeCount :=
  ⟨h.numbered.id_lt id, h.housed id⟩

/-- The owned numbers are all that were given out but the first one, each once. -/
theorem Built.owners_perm (h : b.Built F) :
    (b.owners.map Prod.fst).Perm (List.range' 1 (b.scopeCount - 1)) := by
  refine b.top.owners_perm.trans ?_
  have hdistinct := h.numbered.distinct
  rw [Scope.Distinct, Scope.ids_eq, List.nodup_cons] at hdistinct
  refine (List.perm_ext_iff_of_nodup hdistinct.2 List.nodup_range').mpr fun (id : Nat) => ?_
  have hmem : id ∈ b.top.children.flatMap Scope.ids ↔ id ∈ b.top.ids ∧ id ≠ topId := by
    rw [Scope.ids_eq, List.mem_cons, ← h.top_id]
    constructor
    · exact fun hid => ⟨.inr hid, fun e => hdistinct.1 (e ▸ hid)⟩
    · exact fun hid => hid.1.resolve_left hid.2
  rw [hmem, h.mem_ids, List.mem_range'_1]
  show id < b.scopeCount ∧ id ≠ 0 ↔ _
  omega

/-- The scopes directly inside of a scope are those that it owns. -/
theorem Built.mem_children_iff (h : b.Built F) {s t : Scope} (hs : b.top.find? id = some s) :
    t ∈ s.children ↔ b.Owns id t.frame.id ∧ b.top.find? t.frame.id = some t := by
  have hdistinct := h.numbered.distinct
  obtain ⟨outer, place, rfl⟩ := Scope.exists_of_find? hs
  constructor
  · intro ht
    obtain ⟨stmt, hstmt, hc⟩ := Scope.mem_children.mp ht
    obtain ⟨i, hi⟩ := List.mem_iff_getElem?.mp hstmt
    obtain ⟨slot, hslot⟩ := Stmt.exists_slot_of_mem_scopes hc
    refine ⟨⟨⟨⟨s.frame.id, i⟩, slot⟩, ?_, rfl⟩, (place.inside ht).find?_eq hdistinct⟩
    exact Scope.mem_owners.mpr ⟨outer, s, place, rfl, stmt, hi, t, hslot, rfl⟩
  · rintro ⟨⟨o, ho, hid⟩, ht⟩
    obtain ⟨outer', s', place', hid', stmt, hstmt, c, hc, hcid⟩ := Scope.mem_owners.mp ho
    obtain ⟨-, rfl⟩ := place'.unique hdistinct place (hid'.trans hid)
    have hchild : c ∈ s'.children :=
      Scope.mem_children.mpr ⟨stmt, List.mem_of_getElem? hstmt, Stmt.mem_scopes_of_mem_slots hc⟩
    have hfound := (place'.inside hchild).find?_eq hdistinct
    rw [hcid, ht] at hfound
    exact Option.some.inj hfound ▸ hchild

end Builder

end StructuredFlow
