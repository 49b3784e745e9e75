import Mathlib.Data.List.Perm.Basic
import StructuredFlow.Proofs.ScopeTree

/-
  What a change of one scope does to the tree around it. With distinct numbers the scope under the
  number is replaced, and nothing else is: a place of the changed tree is a place of the old one,
  or a place in a scope that the change brought in (`Within.of_update`), and what is gathered in the
  changed tree is the old and what the change adds to the scope (`Gathers.update`).
-/

namespace StructuredFlow

namespace Scope

variable {root s t c : Scope} {outer : Chain} {id : ScopeId} {f : Scope → Scope}

theorem update_eq (id : ScopeId) (f : Scope → Scope) (s : Scope) :
    s.update id f =
      if s.frame.id = id then f ⟨s.frame, s.stmts.map (Stmt.map (update id f))⟩
      else ⟨s.frame, s.stmts.map (Stmt.map (update id f))⟩ := by
  cases s; exact update_mk id f _ _

/-- Where no scope inside has the number, a scope stays as it is. -/
theorem map_update_stmts (h : ∀ c ∈ s.children, c.update id f = c) :
    ⟨s.frame, s.stmts.map (Stmt.map (update id f))⟩ = s := by
  obtain ⟨frame, stmts⟩ := s
  refine congrArg (mk frame) ((List.map_congr_left fun stmt hstmt => ?_).trans (List.map_id stmts))
  refine (Stmt.map_congr fun c hc => ?_).trans (Stmt.map_id stmt)
  exact h c (mem_children.mpr ⟨stmt, hstmt, hc⟩)

theorem update_of_notMem (h : id ∉ s.ids) : s.update id f = s := by
  induction s using induct with
  | step s ih =>
    rw [ids_eq, List.mem_cons, List.mem_flatMap, not_or] at h
    have hchildren : ∀ c ∈ s.children, c.update id f = c := fun c hc =>
      ih c hc fun hid => h.2 ⟨c, hc, hid⟩
    rw [update_eq, if_neg (fun e => h.1 e.symm), map_update_stmts hchildren]

/-- At the scope with the number, the change is made and nothing else. -/
theorem Distinct.update_eq (h : s.Distinct) (hid : s.frame.id = id) : s.update id f = f s := by
  have hchildren : ∀ c ∈ s.children, c.update id f = c := fun c hc =>
    update_of_notMem (hid ▸ h.frame_id_notMem hc)
  rw [Scope.update_eq, if_pos hid, map_update_stmts hchildren]

theorem frame_update_of_ne (h : s.frame.id ≠ id) : (s.update id f).frame = s.frame := by
  rw [update_eq, if_neg h]

theorem id_update (hf : ∀ t : Scope, (f t).frame.id = t.frame.id) (s : Scope) :
    (s.update id f).frame.id = s.frame.id := by
  rw [update_eq]
  split
  · exact hf _
  · rfl

theorem stmts_update_of_ne (h : s.frame.id ≠ id) :
    (s.update id f).stmts = s.stmts.map (Stmt.map (update id f)) := by
  rw [update_eq, if_neg h]

theorem children_update_of_ne (h : s.frame.id ≠ id) :
    (s.update id f).children = s.children.map (update id f) := by
  rw [children, stmts_update_of_ne h, flatMap_scopes_map]
  rfl

/-! ## Frames -/

/-- A change of one frame changes that frame only. -/
theorem frames_modifyFrame (g : Frame → Frame) (s : Scope) :
    (s.update id (modifyFrame g)).frames =
      s.frames.map fun fr => if fr.id = id then g fr else fr := by
  induction s using induct with
  | step s ih =>
    have hchildren : (s.update id (modifyFrame g)).children =
        s.children.map (update id (modifyFrame g)) := by
      rw [update_eq]
      split <;> exact flatMap_scopes_map _ _
    have hframe : (s.update id (modifyFrame g)).frame =
        if s.frame.id = id then g s.frame else s.frame := by
      rw [update_eq]
      split <;> rfl
    have hinner : ∀ c ∈ s.children, (c.update id (modifyFrame g)).frames =
        c.frames.map fun fr => if fr.id = id then g fr else fr := ih
    rw [frames_eq, frames_eq s, hchildren, hframe, List.map_cons, List.map_flatMap,
      List.flatMap_map, List.flatMap_congr hinner]

/-- What is gathered in a tree: something that each scope has itself, whatever the scopes inside of
it are, and what is gathered in these. -/
structure Gathers {α : Type} (own total : Scope → List α) : Prop where
  total_eq : ∀ s, total s = own s ++ s.children.flatMap total
  own_map : ∀ (s : Scope) (g : Scope → Scope),
    own ⟨s.frame, s.stmts.map (Stmt.map g)⟩ = own s

/-- A change that adds something to one scope adds it to the tree. -/
theorem Gathers.update {α : Type} {own total : Scope → List α} {new : List α}
    (h : Gathers own total) (hroot : root.Distinct) (hs : Within root outer s)
    (hid : s.frame.id = id) (hnew : (total (f s)).Perm (total s ++ new)) :
    (total (root.update id f)).Perm (total root ++ new) := by
  induction root using induct generalizing outer with
  | step root ih =>
    by_cases hr : root.frame.id = id
    · obtain ⟨-, rfl⟩ := hs.unique hroot .here (hid.trans hr.symm)
      rwa [hroot.update_eq hr]
    · obtain ⟨l, c, r, hlr, hc, hother⟩ := hroot.split_children hr (hid ▸ hs.id_mem)
      have hcmem : c ∈ root.children := by rw [hlr]; simp
      obtain ⟨inner, hin⟩ : ∃ inner, Within c inner s := by
        rcases hs.cases_root with ⟨-, rfl⟩ | ⟨d, hd, inner, -, hin⟩
        · exact absurd hid hr
        · obtain rfl := hroot.child_unique hcmem hd hc (hid ▸ hin.id_mem)
          exact ⟨inner, hin⟩
      have hsame : ∀ d ∈ l ++ r, d.update id f = d := fun d hd => update_of_notMem (hother d hd)
      have hl : l.map (update id f) = l := (List.map_congr_left fun d hd =>
        hsame d (List.mem_append_left r hd)).trans (List.map_id l)
      have hr' : r.map (update id f) = r := (List.map_congr_left fun d hd =>
        hsame d (List.mem_append_right l hd)).trans (List.map_id r)
      have hperm := ih c hcmem (hroot.child hcmem) hin
      have hown : own (root.update id f) = own root := by
        rw [update_eq, if_neg hr]
        exact h.own_map root _
      rw [h.total_eq, h.total_eq root, hown, children_update_of_ne hr, hlr, List.map_append,
        List.map_cons, hl, hr', List.append_assoc]
      refine List.Perm.append_left _ ?_
      simp only [List.flatMap_append, List.flatMap_cons, List.append_assoc]
      refine List.Perm.append_left _ ?_
      exact (hperm.append_right _).trans
        (by rw [List.append_assoc]; exact List.Perm.append_left _ List.perm_append_comm)

theorem gathers_frames : Gathers (fun s => [s.frame]) frames where
  total_eq := frames_eq
  own_map _ _ := rfl

/-! ## Places -/

/-- The frame of the changed scope in place of the frame with the number. -/
def swapFrame (id : ScopeId) (new : Frame) (fr : Frame) : Frame :=
  if fr.id = id then new else fr

theorem swapFrame_of_ne {new fr : Frame} (h : fr.id ≠ id) : swapFrame id new fr = fr :=
  if_neg h

namespace Within

variable {outer' : Chain}

theorem frame_update (hroot : root.Distinct) (hs : Within root outer s) (hid : s.frame.id = id)
    (ht : Within root outer' t) : (t.update id f).frame = swapFrame id (f s).frame t.frame := by
  by_cases hti : t.frame.id = id
  · obtain ⟨rfl, rfl⟩ := ht.unique hroot hs (hti.trans hid.symm)
    rw [(ht.distinct hroot).update_eq hti, swapFrame, if_pos hti]
  · rw [frame_update_of_ne hti, swapFrame_of_ne hti]

/-- The frames around the changed scope stay as they are. -/
theorem map_swapFrame_outer (hroot : root.Distinct) (hs : Within root outer s)
    (hid : s.frame.id = id) : outer.map (swapFrame id (f s).frame) = outer := by
  refine (List.map_congr_left fun fr hfr => ?_).trans (List.map_id outer)
  refine swapFrame_of_ne fun hfid => ?_
  obtain ⟨t, inner, o, ht, rfl, hin, ho⟩ := hs.around hfr
  obtain ⟨rfl, -⟩ := ht.unique hroot hs (hfid.trans hid.symm)
  have := congrArg List.length ho
  simp only [List.length_append, List.length_cons] at this
  omega

/-- A place of the old tree is one of the changed tree, if the change keeps the scopes inside. -/
theorem update (hroot : root.Distinct) (hs : Within root outer s) (hid : s.frame.id = id)
    (hkeep : ∀ c ∈ s.children, c ∈ (f s).children) (ht : Within root outer' t) :
    Within (root.update id f) (outer'.map (swapFrame id (f s).frame)) (t.update id f) := by
  induction ht with
  | here => exact .here
  | @inside outer' t c ht hc ih =>
    rw [List.map_cons, ← frame_update hroot hs hid ht]
    refine ih.inside ?_
    by_cases hti : t.frame.id = id
    · obtain ⟨rfl, rfl⟩ := ht.unique hroot hs (hti.trans hid.symm)
      have hd := ht.distinct hroot
      rw [hd.update_eq hti, update_of_notMem (hti ▸ hd.frame_id_notMem hc)]
      exact hkeep c hc
    · rw [children_update_of_ne hti]
      exact List.mem_map_of_mem hc

/-- The changed scope stands where the old one stood. -/
theorem update_self (hroot : root.Distinct) (hs : Within root outer s) (hid : s.frame.id = id)
    (hkeep : ∀ c ∈ s.children, c ∈ (f s).children) : Within (root.update id f) outer (f s) := by
  have := update hroot hs hid hkeep hs
  rwa [map_swapFrame_outer hroot hs hid, (hs.distinct hroot).update_eq hid] at this

/-- A place of the changed tree is one of the old tree, or one in a scope that the change brought
in. -/
theorem of_update (hroot : root.Distinct) (hs : Within root outer s) (hid : s.frame.id = id)
    (ht : Within (root.update id f) outer' t) :
    (∃ o u, Within root o u ∧ outer' = o.map (swapFrame id (f s).frame) ∧ t = u.update id f) ∨
      ∃ c ∈ (f s).children, c ∉ s.children ∧
        ∃ inner, outer' = inner ++ (f s).frame :: outer ∧ Within c inner t := by
  induction ht with
  | here => exact .inl ⟨[], root, .here, rfl, rfl⟩
  | @inside outer' t c _ hc ih =>
    rcases ih with ⟨o, u, hu, rfl, rfl⟩ | ⟨d, hd, hnew, inner, rfl, hin⟩
    · by_cases hui : u.frame.id = id
      · obtain ⟨rfl, rfl⟩ := hu.unique hroot hs (hui.trans hid.symm)
        have hdis := hu.distinct hroot
        rw [hdis.update_eq hui] at hc ⊢
        by_cases hold : c ∈ u.children
        · refine .inl ⟨u.frame :: o, c, hu.inside hold, ?_, ?_⟩
          · rw [List.map_cons, swapFrame, if_pos hui]
          · rw [update_of_notMem (hui ▸ hdis.frame_id_notMem hold)]
        · refine .inr ⟨c, hc, hold, [], ?_, .here⟩
          rw [map_swapFrame_outer hroot hu hui, List.nil_append]
      · rw [children_update_of_ne hui] at hc
        obtain ⟨d, hd, rfl⟩ := List.mem_map.mp hc
        refine .inl ⟨u.frame :: o, d, hu.inside hd, ?_, rfl⟩
        rw [List.map_cons, frame_update hroot hs hid hu]
    · exact .inr ⟨d, hd, hnew, t.frame :: inner, rfl, hin.inside hc⟩

end Within

end Scope

end StructuredFlow
