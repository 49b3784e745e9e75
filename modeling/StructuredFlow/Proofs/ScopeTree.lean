import Mathlib.Data.List.Nodup
import StructuredFlow.Scope.Lookup

/-
  Scopes form a tree, and a number leads to one place in it. `Within root outer s` says that `s`
  stands in `root` with the frames `outer` around it, from the inside out. As long as no two scopes
  share a number, `find?` and `chain?` give the one scope that stands under a number and its chain
  (`Within.find?_eq`, `Within.chain?_eq`), and two scopes that stand under one number are one
  (`Within.unique`).
-/

namespace StructuredFlow

namespace Stmt

variable {σ : Type}

/-- A scope of a statement is smaller than the statement. -/
theorem sizeOf_lt_of_mem_scopes [SizeOf σ] {s : Stmt σ} {c : σ} (h : c ∈ s.scopes) :
    sizeOf c < sizeOf s := by
  cases s with
  | node n => simp [scopes] at h
  | goto name => simp [scopes] at h
  | conditional links otherwise =>
    simp only [scopes, List.mem_append, List.mem_map, Option.mem_toList, Prod.exists] at h
    rcases h with ⟨test, d, hd, rfl⟩ | h
    · have := List.sizeOf_lt_of_mem hd
      simp only [conditional.sizeOf_spec, Prod.mk.sizeOf_spec] at this ⊢
      omega
    · cases h
      simp only [conditional.sizeOf_spec, Option.some.sizeOf_spec]
      omega
  | loop l body =>
    simp only [scopes, List.mem_singleton] at h
    subst h
    simp only [loop.sizeOf_spec]; omega
  | iteration iterator collection l body =>
    simp only [scopes, List.mem_singleton] at h
    subst h
    simp only [iteration.sizeOf_spec]; omega
  | switch value groups default =>
    simp only [scopes, List.mem_append, List.mem_filterMap, Option.mem_toList] at h
    rcases h with ⟨⟨values, body⟩, hg, hb⟩ | h
    · have := List.sizeOf_lt_of_mem hg
      simp only at hb
      subst hb
      simp only [switch.sizeOf_spec, Arm.mk.sizeOf_spec, Option.some.sizeOf_spec] at this ⊢
      omega
    · obtain ⟨⟨l, d⟩, hd, rfl⟩ := Option.map_eq_some_iff.mp (Option.mem_def.mp h)
      subst hd
      simp only [switch.sizeOf_spec, Option.some.sizeOf_spec, Prod.mk.sizeOf_spec]
      omega
  | attempt body handlers cleanup =>
    simp only [scopes, List.mem_cons, List.mem_append, List.mem_map, Option.mem_toList] at h
    rcases h with rfl | ⟨⟨kind, binding, d⟩, hd, rfl⟩ | h
    · simp only [attempt.sizeOf_spec]; omega
    · have := List.sizeOf_lt_of_mem hd
      simp only [attempt.sizeOf_spec, Handler.mk.sizeOf_spec] at this ⊢
      omega
    · cases h
      simp only [attempt.sizeOf_spec, Option.some.sizeOf_spec]
      omega
  | resource symbol producer body =>
    simp only [scopes, List.mem_singleton] at h
    subst h
    simp only [resource.sizeOf_spec]; omega

/-- Replacing the scopes of a statement only looks at the scopes that it has. -/
theorem map_congr {τ : Type} {f g : σ → τ} {s : Stmt σ} (h : ∀ c ∈ s.scopes, f c = g c) :
    s.map f = s.map g := by
  cases s with
  | node n => rfl
  | goto name => rfl
  | conditional links otherwise =>
    simp only [scopes, List.mem_append, List.mem_map, Option.mem_toList] at h
    have hl : links.map (fun l => (l.1, f l.2)) = links.map (fun l => (l.1, g l.2)) :=
      List.map_congr_left fun l hl => by rw [h l.2 (.inl ⟨l, hl, rfl⟩)]
    have ho : otherwise.map f = otherwise.map g := Option.map_congr fun c hc => h c (.inr hc)
    simp only [map, hl, ho]
  | loop l body => simp only [map, h body (List.mem_singleton_self _)]
  | iteration iterator collection l body => simp only [map, h body (List.mem_singleton_self _)]
  | switch value groups default =>
    simp only [scopes, List.mem_append, List.mem_filterMap, Option.mem_toList] at h
    have hg : groups.map (fun g => (⟨g.values, g.body.map f⟩ : Arm (Option τ))) =
        groups.map (fun a => ⟨a.values, a.body.map g⟩) :=
      List.map_congr_left fun a ha => by
        rw [Option.map_congr fun c hc => h c (.inl ⟨a, ha, hc⟩)]
    have hd : default.map (fun d => (d.1, f d.2)) = default.map (fun d => (d.1, g d.2)) :=
      Option.map_congr fun d hd => by
        rw [h d.2 (.inr (Option.mem_def.mpr (by rw [Option.mem_def.mp hd]; rfl)))]
    simp only [map, hg, hd]
  | attempt body handlers cleanup =>
    simp only [scopes, List.mem_cons, List.mem_append, List.mem_map, Option.mem_toList] at h
    have hh : handlers.map (fun a => (⟨a.kind, a.binding, f a.body⟩ : Handler τ)) =
        handlers.map (fun a => ⟨a.kind, a.binding, g a.body⟩) :=
      List.map_congr_left fun a ha => by rw [h a.body (.inr (.inl ⟨a, ha, rfl⟩))]
    have hc : cleanup.map f = cleanup.map g :=
      Option.map_congr fun c hc => h c (.inr (.inr hc))
    simp only [map, h body (.inl rfl), hh, hc]
  | resource symbol producer body => simp only [map, h body (List.mem_singleton_self _)]

end Stmt

namespace Scope

/-- The scopes directly inside of a scope. -/
def children (s : Scope) : List Scope :=
  s.stmts.flatMap Stmt.scopes

theorem mem_children {s c : Scope} : c ∈ s.children ↔ ∃ stmt ∈ s.stmts, c ∈ stmt.scopes :=
  List.mem_flatMap

theorem sizeOf_lt_of_mem_children {s c : Scope} (h : c ∈ s.children) : sizeOf c < sizeOf s := by
  obtain ⟨stmt, hs, hc⟩ := mem_children.mp h
  have h₁ := List.sizeOf_lt_of_mem hs
  have h₂ := Stmt.sizeOf_lt_of_mem_scopes hc
  cases s with
  | mk frame stmts =>
    simp only [mk.sizeOf_spec] at h₁ ⊢
    omega

/-- Induction over a tree of scopes: what holds of a scope whenever it holds of the scopes directly
inside holds of all scopes. -/
theorem induct {motive : Scope → Prop}
    (step : ∀ s : Scope, (∀ c ∈ s.children, motive c) → motive s) (s : Scope) : motive s :=
  step s fun c h =>
    have := sizeOf_lt_of_mem_children h
    induct step c
termination_by sizeOf s

theorem frames_eq (s : Scope) : s.frames = s.frame :: s.children.flatMap frames := by
  cases s; exact frames_mk _ _

theorem chain?_eq (id : ScopeId) (s : Scope) :
    s.chain? id = if s.frame.id = id then some [s.frame]
      else (s.children.findSome? (chain? id)).map (· ++ [s.frame]) := by
  cases s; exact chain?_mk id _ _

theorem subscopes_eq (s : Scope) : s.subscopes = s :: s.children.flatMap subscopes := by
  -- The fold carries each scope along with those in it; the first part of it rebuilds the scope.
  let pair : Frame → List (Stmt (Scope × List Scope)) → Scope × List Scope := fun frame stmts =>
    let s : Scope := ⟨frame, stmts.map (Stmt.map Prod.fst)⟩
    (s, s :: (stmts.flatMap Stmt.scopes).flatMap Prod.snd)
  have rebuilt : ∀ s : Scope, (s.fold pair).1 = s := by
    intro s
    induction s using induct with
    | step s ih =>
      obtain ⟨frame, stmts⟩ := s
      have hstmts : (stmts.map (Stmt.map (fold pair))).map (Stmt.map Prod.fst) = stmts := by
        rw [List.map_map]
        refine (List.map_congr_left fun stmt hs => ?_).trans (List.map_id stmts)
        rw [Function.comp_apply, Stmt.map_map]
        refine (Stmt.map_congr fun c hc => ?_).trans (Stmt.map_id stmt)
        exact ih c (mem_children.mpr ⟨stmt, hs, hc⟩)
      rw [fold_mk]
      simp only [pair, hstmts]
  obtain ⟨frame, stmts⟩ := s
  have hfst : (fold pair ⟨frame, stmts⟩).1 = ⟨frame, stmts⟩ := rebuilt _
  have hsnd : (fold pair ⟨frame, stmts⟩).2 =
      (fold pair ⟨frame, stmts⟩).1 :: (stmts.flatMap Stmt.scopes).flatMap subscopes := by
    have hscopes : (stmts.map (Stmt.map (fold pair))).flatMap Stmt.scopes =
        (stmts.flatMap Stmt.scopes).map (fold pair) := flatMap_scopes_map _ _
    rw [fold_mk]
    simp only [pair] at hscopes ⊢
    rw [hscopes, List.flatMap_map]
    rfl
  rw [hfst] at hsnd
  exact hsnd

/-! ## Places -/

/-- `s` stands in the tree of `root`, with the frames `outer` around it, from the inside out. -/
inductive Within (root : Scope) : Chain → Scope → Prop
  | here : Within root [] root
  | inside {outer s c} : Within root outer s → c ∈ s.children → Within root (s.frame :: outer) c

namespace Within

variable {root s t c : Scope} {outer inner : Chain}

theorem trans (hs : Within root outer s) (ht : Within s inner t) :
    Within root (inner ++ outer) t := by
  induction ht with
  | here => exact hs
  | inside _ hc ih => exact ih.inside hc

/-- A place is the outermost scope, or a place in one of the scopes directly inside. -/
theorem cases_root (h : Within root outer s) :
    (outer = [] ∧ s = root) ∨
      ∃ c ∈ root.children, ∃ inner, outer = inner ++ [root.frame] ∧ Within c inner s := by
  induction h with
  | here => exact .inl ⟨rfl, rfl⟩
  | @inside outer s c hs hc ih =>
    rcases ih with ⟨rfl, rfl⟩ | ⟨d, hd, inner, rfl, hin⟩
    · exact .inr ⟨c, hc, [], rfl, .here⟩
    · exact .inr ⟨d, hd, s.frame :: inner, rfl, hin.inside hc⟩

theorem of_child (hc : c ∈ root.children) (h : Within c inner s) :
    Within root (inner ++ [root.frame]) s :=
  trans (.inside .here hc) h

end Within

theorem mem_frames_iff {root : Scope} {f : Frame} :
    f ∈ root.frames ↔ ∃ outer s, Within root outer s ∧ s.frame = f := by
  induction root using induct with
  | step root ih =>
    rw [frames_eq, List.mem_cons, List.mem_flatMap]
    constructor
    · rintro (rfl | ⟨c, hc, hf⟩)
      · exact ⟨[], root, .here, rfl⟩
      · obtain ⟨inner, s, hs, rfl⟩ := (ih c hc).mp hf
        exact ⟨_, s, hs.of_child hc, rfl⟩
    · rintro ⟨outer, s, hs, rfl⟩
      rcases hs.cases_root with ⟨-, rfl⟩ | ⟨c, hc, inner, -, hin⟩
      · exact .inl rfl
      · exact .inr ⟨c, hc, (ih c hc).mpr ⟨inner, s, hin, rfl⟩⟩

theorem mem_subscopes_iff {root s : Scope} : s ∈ root.subscopes ↔ ∃ outer, Within root outer s := by
  induction root using induct with
  | step root ih =>
    rw [subscopes_eq, List.mem_cons, List.mem_flatMap]
    constructor
    · rintro (rfl | ⟨c, hc, hs⟩)
      · exact ⟨[], .here⟩
      · obtain ⟨inner, hin⟩ := (ih c hc).mp hs
        exact ⟨_, hin.of_child hc⟩
    · rintro ⟨outer, hs⟩
      rcases hs.cases_root with ⟨-, rfl⟩ | ⟨c, hc, inner, -, hin⟩
      · exact .inl rfl
      · exact .inr ⟨c, hc, (ih c hc).mpr ⟨inner, hin⟩⟩

/-- A frame around a scope belongs to a scope that holds it. -/
theorem Within.around {root s : Scope} {outer : Chain} (h : Within root outer s) {f : Frame}
    (hf : f ∈ outer) :
    ∃ t inner outer', Within root outer' t ∧ t.frame = f ∧ Within t (inner ++ [f]) s ∧
      outer = inner ++ f :: outer' := by
  induction h with
  | here => simp at hf
  | @inside outer s c hs hc ih =>
    rcases List.mem_cons.mp hf with rfl | hf
    · exact ⟨s, [], outer, hs, rfl, .inside .here hc, rfl⟩
    · obtain ⟨t, inner, outer', ht, hft, hin, rfl⟩ := ih hf
      exact ⟨t, s.frame :: inner, outer', ht, hft, hin.inside hc, rfl⟩

theorem Within.frame_mem {root s : Scope} {outer : Chain} (h : Within root outer s) :
    s.frame ∈ root.frames :=
  mem_frames_iff.mpr ⟨outer, s, h, rfl⟩

theorem Within.mem_frames {root s : Scope} {outer : Chain} (h : Within root outer s) {f : Frame}
    (hf : f ∈ s.frame :: outer) : f ∈ root.frames := by
  rcases List.mem_cons.mp hf with rfl | hf
  · exact h.frame_mem
  · obtain ⟨t, _, _, ht, rfl, _, _⟩ := h.around hf
    exact ht.frame_mem

/-! ## Numbers that lead to one place -/

/-- The numbers of a scope and all scopes in it. -/
def ids (s : Scope) : List ScopeId :=
  s.frames.map Frame.id

theorem ids_eq (s : Scope) : s.ids = s.frame.id :: s.children.flatMap ids := by
  simp only [ids, frames_eq s, List.map_cons, List.map_flatMap]
  rfl

theorem Within.id_mem {root s : Scope} {outer : Chain} (h : Within root outer s) :
    s.frame.id ∈ root.ids :=
  List.mem_map_of_mem h.frame_mem

/-- No two scopes of the tree share a number. -/
def Distinct (s : Scope) : Prop :=
  s.ids.Nodup

namespace Distinct

variable {root s t c d : Scope} {outer outer' : Chain} {id : ScopeId}

theorem child (h : root.Distinct) (hc : c ∈ root.children) : c.Distinct := by
  rw [Distinct, ids_eq, List.nodup_cons, List.nodup_flatMap] at h
  exact h.2.1 c hc

theorem frame_id_notMem (h : root.Distinct) (hc : c ∈ root.children) : root.frame.id ∉ c.ids := by
  rw [Distinct, ids_eq, List.nodup_cons] at h
  exact fun hid => h.1 (List.mem_flatMap.mpr ⟨c, hc, hid⟩)

/-- The scope of a number is one of the scopes directly inside, and none of the others has it. -/
theorem split_children (h : root.Distinct) (hne : root.frame.id ≠ id) (hid : id ∈ root.ids) :
    ∃ l c r, root.children = l ++ c :: r ∧ id ∈ c.ids ∧ ∀ d ∈ l ++ r, id ∉ d.ids := by
  rw [Distinct, ids_eq, List.nodup_cons, List.nodup_flatMap] at h
  rw [ids_eq, List.mem_cons, List.mem_flatMap] at hid
  obtain hid | ⟨c, hc, hid⟩ := hid
  · exact absurd hid.symm hne
  · obtain ⟨l, r, hlr⟩ := List.append_of_mem hc
    refine ⟨l, c, r, hlr, hid, fun d hd hdid => ?_⟩
    have hp := h.2.2
    rw [hlr, List.pairwise_append, List.pairwise_cons] at hp
    rcases List.mem_append.mp hd with hd | hd
    · exact hp.2.2 d hd c List.mem_cons_self hdid hid
    · exact hp.2.1.1 d hd hid hdid

theorem child_unique (h : root.Distinct) (hc : c ∈ root.children) (hd : d ∈ root.children)
    (hic : id ∈ c.ids) (hid : id ∈ d.ids) : c = d := by
  have hne : root.frame.id ≠ id := fun e => h.frame_id_notMem hc (e ▸ hic)
  have hroot : id ∈ root.ids := by
    rw [ids_eq]
    exact List.mem_cons_of_mem _ (List.mem_flatMap.mpr ⟨c, hc, hic⟩)
  obtain ⟨l, e, r, hlr, -, hother⟩ := h.split_children hne hroot
  have only : ∀ x ∈ root.children, id ∈ x.ids → x = e := by
    intro x hx hix
    rw [hlr, List.mem_append, List.mem_cons] at hx
    rcases hx with hx | rfl | hx
    · exact absurd hix (hother x (List.mem_append_left r hx))
    · rfl
    · exact absurd hix (hother x (List.mem_append_right l hx))
  rw [only c hc hic, only d hd hid]

end Distinct

/-- Two scopes that stand under one number are one scope in one place. -/
theorem Within.unique {root s t : Scope} {outer outer' : Chain} (hroot : root.Distinct)
    (hs : Within root outer s) (ht : Within root outer' t) (hid : s.frame.id = t.frame.id) :
    outer = outer' ∧ s = t := by
  induction root using induct generalizing outer outer' with
  | step root ih =>
    rcases hs.cases_root with ⟨rfl, rfl⟩ | ⟨c, hc, inner, rfl, hs'⟩ <;>
      rcases ht.cases_root with ⟨rfl, rfl⟩ | ⟨d, hd, inner', rfl, ht'⟩
    · exact ⟨rfl, rfl⟩
    · exact absurd (hid ▸ ht'.id_mem) (hroot.frame_id_notMem hd)
    · exact absurd (hid ▸ hs'.id_mem) (hroot.frame_id_notMem hc)
    · obtain rfl := hroot.child_unique hc hd hs'.id_mem (hid ▸ ht'.id_mem)
      obtain ⟨rfl, rfl⟩ := ih c hc (hroot.child hc) hs' ht'
      exact ⟨rfl, rfl⟩

theorem Within.distinct {root s : Scope} {outer : Chain} (h : Within root outer s)
    (hroot : root.Distinct) : s.Distinct := by
  induction h with
  | here => exact hroot
  | inside _ hc ih => exact ih.child hc

/-! ## Looking up a number -/

theorem exists_of_chain? {root : Scope} {id : ScopeId} {c : Chain} (h : root.chain? id = some c) :
    ∃ outer s, Within root outer s ∧ s.frame.id = id ∧ c = s.frame :: outer := by
  induction root using induct generalizing c with
  | step root ih =>
    rw [chain?_eq] at h
    split at h
    next hid =>
      obtain rfl := Option.some.inj h
      exact ⟨[], root, .here, hid, rfl⟩
    next hid =>
      obtain ⟨inner, hin, rfl⟩ := Option.map_eq_some_iff.mp h
      obtain ⟨d, hd, hdc⟩ := List.exists_of_findSome?_eq_some hin
      obtain ⟨outer, s, hs, hsid, rfl⟩ := ih d hd hdc
      exact ⟨_, s, hs.of_child hd, hsid, rfl⟩

theorem chain?_isSome {root : Scope} {id : ScopeId} (h : id ∈ root.ids) :
    ∃ c, root.chain? id = some c := by
  induction root using induct with
  | step root ih =>
    rw [chain?_eq]
    split
    · exact ⟨_, rfl⟩
    next hne =>
      rw [ids_eq, List.mem_cons, List.mem_flatMap] at h
      obtain h | ⟨c, hc, h⟩ := h
      · exact absurd h.symm hne
      · obtain ⟨k, hk⟩ := ih c hc h
        have : (root.children.findSome? (chain? id)).isSome :=
          List.findSome?_isSome_iff.mpr ⟨c, hc, by rw [hk]; rfl⟩
        obtain ⟨k', hk'⟩ := Option.isSome_iff_exists.mp this
        exact ⟨k' ++ [root.frame], by rw [hk']; rfl⟩

/-- The chain of a number is the frame of its scope and the frames around that. -/
theorem Within.chain?_eq {root s : Scope} {outer : Chain} (h : Within root outer s)
    (hroot : root.Distinct) : root.chain? s.frame.id = some (s.frame :: outer) := by
  obtain ⟨c, hc⟩ := chain?_isSome h.id_mem
  obtain ⟨outer', t, ht, hid, rfl⟩ := exists_of_chain? hc
  obtain ⟨rfl, rfl⟩ := ht.unique hroot h hid
  exact hc

theorem exists_of_find? {root s : Scope} {id : ScopeId} (h : root.find? id = some s) :
    ∃ outer, Within root outer s ∧ s.frame.id = id := by
  obtain ⟨outer, hs⟩ := mem_subscopes_iff.mp (List.mem_of_find?_eq_some h)
  exact ⟨outer, hs, by simpa using List.find?_some h⟩

/-- The scope of a number is the one that stands under it. -/
theorem Within.find?_eq {root s : Scope} {outer : Chain} (h : Within root outer s)
    (hroot : root.Distinct) : root.find? s.frame.id = some s := by
  cases hf : root.find? s.frame.id with
  | none =>
    have := List.find?_eq_none.mp hf s (mem_subscopes_iff.mpr ⟨outer, h⟩)
    simp at this
  | some t =>
    obtain ⟨outer', ht, hid⟩ := exists_of_find? hf
    rw [(ht.unique hroot h hid).2]

end Scope

end StructuredFlow
