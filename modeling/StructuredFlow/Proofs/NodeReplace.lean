import StructuredFlow.Proofs.NodeTree

/-
  One node in the place of another, wherever that stands in a tree (`Node.replace`). All else of the
  tree stays; so labels lead into the tree as before if they lead into both nodes alike
  (`Node.defines_replace`), and a tree without the node stays as it is (`Node.replace_eq_self`).
-/

namespace StructuredFlow

namespace Node

/-- The node with other nodes directly below it. -/
def mapChildren (f : Node → Node) : Node → Node
  | block locals body => block locals (body.map f)
  | branch test yes no => branch test (f yes) (f no)
  | loop body leave next => loop (f body) leave next
  | switch value arms default =>
    switch value (arms.map fun a => ⟨a.values, f a.body⟩) (default.map f)
  | attempt body handlers cleanup =>
    attempt (f body) (handlers.map fun h => ⟨h.kind, h.binding, f h.body⟩) (cleanup.map f)
  | n => n

open Classical in
mutual

/-- The tree with one node in the place of another. -/
noncomputable def replace (old new n : Node) : Node :=
  if n = old then new else
    match n with
    | block locals body => block locals (replaceAll old new body)
    | branch test yes no => branch test (replace old new yes) (replace old new no)
    | loop body leave next => loop (replace old new body) leave next
    | switch value arms none => switch value (replaceArms old new arms) none
    | switch value arms (some default) =>
      switch value (replaceArms old new arms) (some (replace old new default))
    | attempt body handlers none =>
      attempt (replace old new body) (replaceHandlers old new handlers) none
    | attempt body handlers (some cleanup) =>
      attempt (replace old new body) (replaceHandlers old new handlers)
        (some (replace old new cleanup))
    | n => n
termination_by structural n

noncomputable def replaceAll (old new : Node) : List Node → List Node
  | [] => []
  | n :: rest => replace old new n :: replaceAll old new rest
termination_by structural ns => ns

noncomputable def replaceArms (old new : Node) : List (Arm Node) → List (Arm Node)
  | [] => []
  | ⟨values, n⟩ :: rest => ⟨values, replace old new n⟩ :: replaceArms old new rest
termination_by structural arms => arms

noncomputable def replaceHandlers (old new : Node) : List (Handler Node) → List (Handler Node)
  | [] => []
  | ⟨kind, binding, n⟩ :: rest => ⟨kind, binding, replace old new n⟩ :: replaceHandlers old new rest
termination_by structural handlers => handlers

end

variable {old new n : Node} {f g : Node → Node} {l : LabelId}

/-! ## The nodes directly below -/

theorem children_mapChildren (f : Node → Node) (n : Node) :
    (n.mapChildren f).children = n.children.map f := by
  cases n with
  | switch value arms default => cases default <;> simp [mapChildren, children]
  | attempt body handlers cleanup => cases cleanup <;> simp [mapChildren, children]
  | _ => simp [mapChildren, children]

theorem marks_mapChildren (f : Node → Node) (n : Node) (l : LabelId) :
    (n.mapChildren f).marks l = n.marks l := by
  cases n <;> rfl

theorem defines_mapChildren (h : ∀ c ∈ n.children, (f c).defines l = c.defines l) :
    (n.mapChildren f).defines l = n.defines l := by
  rw [defines_eq, defines_eq l n, marks_mapChildren, children_mapChildren, List.any_map]
  refine congrArg _ (Bool.eq_iff_iff.mpr ?_)
  simp only [List.any_eq_true, Function.comp_apply]
  exact exists_congr fun c => and_congr_right fun hc => by rw [h c hc]

theorem mapChildren_congr (h : ∀ c ∈ n.children, f c = g c) :
    n.mapChildren f = n.mapChildren g := by
  cases n with
  | block locals body => exact congrArg (block locals) (List.map_congr_left h)
  | branch test yes no =>
    simp only [children, List.forall_mem_cons] at h
    simp only [mapChildren, h.1, h.2.1]
  | loop body leave next => simp only [mapChildren, h body (List.mem_singleton_self _)]
  | switch value arms default =>
    simp only [children, List.mem_append, List.mem_map, Option.mem_toList] at h
    have harms : arms.map (fun a => (⟨a.values, f a.body⟩ : Arm Node)) =
        arms.map fun a => ⟨a.values, g a.body⟩ :=
      List.map_congr_left fun a ha => by rw [h a.body (.inl ⟨a, ha, rfl⟩)]
    have hdefault : default.map f = default.map g := Option.map_congr fun c hc => h c (.inr hc)
    simp only [mapChildren, harms, hdefault]
  | attempt body handlers cleanup =>
    simp only [children, List.mem_cons, List.mem_append, List.mem_map, Option.mem_toList] at h
    have hhandlers : handlers.map (fun a => (⟨a.kind, a.binding, f a.body⟩ : Handler Node)) =
        handlers.map fun a => ⟨a.kind, a.binding, g a.body⟩ :=
      List.map_congr_left fun a ha => by rw [h a.body (.inr (.inl ⟨a, ha, rfl⟩))]
    have hcleanup : cleanup.map f = cleanup.map g :=
      Option.map_congr fun c hc => h c (.inr (.inr hc))
    simp only [mapChildren, h body (.inl rfl), hhandlers, hcleanup]
  | _ => rfl

theorem mapChildren_id (n : Node) : n.mapChildren id = n := by
  cases n <;> simp [mapChildren]

/-! ## Replacing -/

theorem replaceAll_eq_map (old new : Node) (ns : List Node) :
    replaceAll old new ns = ns.map (replace old new) := by
  induction ns with
  | nil => rfl
  | cons n ns ih => simp [replaceAll, ih]

theorem replaceArms_eq_map (old new : Node) (arms : List (Arm Node)) :
    replaceArms old new arms = arms.map fun a => ⟨a.values, replace old new a.body⟩ := by
  induction arms with
  | nil => rfl
  | cons a arms ih => simp [replaceArms, ih]

theorem replaceHandlers_eq_map (old new : Node) (handlers : List (Handler Node)) :
    replaceHandlers old new handlers =
      handlers.map fun h => ⟨h.kind, h.binding, replace old new h.body⟩ := by
  induction handlers with
  | nil => rfl
  | cons h handlers ih => simp [replaceHandlers, ih]

theorem replace_self (old new : Node) : replace old new old = new := by
  unfold replace
  exact if_pos rfl

theorem replace_of_ne (h : n ≠ old) : replace old new n = n.mapChildren (replace old new) := by
  unfold replace
  rw [if_neg h]
  cases n with
  | switch value arms default => cases default <;> simp [mapChildren, replaceArms_eq_map]
  | attempt body handlers cleanup => cases cleanup <;> simp [mapChildren, replaceHandlers_eq_map]
  | _ => simp [mapChildren, replaceAll_eq_map]

theorem defines_replace (h : new.defines l = old.defines l) (n : Node) :
    (replace old new n).defines l = n.defines l := by
  induction n using induct with
  | step n ih =>
    by_cases hn : n = old
    · rw [hn, replace_self, h]
    · rw [replace_of_ne hn, defines_mapChildren ih]

/-- In a tree without the node nothing is replaced. -/
theorem replace_eq_self (h : old ∉ n.subnodes) : replace old new n = n := by
  induction n using induct with
  | step n ih =>
    have hne : n ≠ old := fun hn => h (hn ▸ n.self_mem_subnodes)
    rw [replace_of_ne hne, mapChildren_congr (g := id), mapChildren_id]
    exact fun c hc => ih c hc fun hold => h (mem_subnodes_of_mem_children hc hold)

/-- What is below a node does not hold the node itself. -/
theorem replace_eq_self_of_mem_children (h : n ∈ old.children) : replace old new n = n := by
  refine replace_eq_self fun hold => ?_
  have := sizeOf_lt_of_mem_children h
  have := sizeOf_le_of_mem_subnodes hold
  omega

end Node

end StructuredFlow
