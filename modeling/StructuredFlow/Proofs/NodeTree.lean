import StructuredFlow.Proofs.Visits

/-
  Nodes form a tree. What holds of a node whenever it holds of its children holds of all nodes
  (`Node.induct`). The nodes of a tree are its root and what is below it; they stand somewhere in
  the tree, and a label is defined by a tree if one of them marks it (`Node.defines_iff`).
-/

namespace StructuredFlow

namespace Node

variable {n c d : Node} {l : LabelId}

theorem sizeOf_lt_of_mem_children (h : c ∈ n.children) : sizeOf c < sizeOf n := by
  cases n with
  | block locals body =>
    have : sizeOf c < sizeOf body := List.sizeOf_lt_of_mem h
    simp only [block.sizeOf_spec]
    omega
  | branch test yes no =>
    rcases List.mem_cons.mp h with rfl | h
    · simp only [branch.sizeOf_spec]; omega
    · obtain rfl := List.mem_singleton.mp h
      simp only [branch.sizeOf_spec]; omega
  | loop body leave next =>
    obtain rfl := List.mem_singleton.mp h
    simp only [loop.sizeOf_spec]; omega
  | switch value arms default =>
    rcases List.mem_append.mp h with h | h
    · obtain ⟨⟨values, body⟩, ha, rfl⟩ := List.mem_map.mp h
      have := List.sizeOf_lt_of_mem ha
      simp only [switch.sizeOf_spec, Arm.mk.sizeOf_spec] at this ⊢
      omega
    · obtain rfl := Option.mem_toList.mp h
      simp only [switch.sizeOf_spec, Option.some.sizeOf_spec]
      omega
  | attempt body handlers cleanup =>
    rcases List.mem_cons.mp h with rfl | h
    · simp only [attempt.sizeOf_spec]; omega
    rcases List.mem_append.mp h with h | h
    · obtain ⟨⟨kind, binding, body⟩, hh, rfl⟩ := List.mem_map.mp h
      have := List.sizeOf_lt_of_mem hh
      simp only [attempt.sizeOf_spec, Handler.mk.sizeOf_spec] at this ⊢
      omega
    · obtain rfl := Option.mem_toList.mp h
      simp only [attempt.sizeOf_spec, Option.some.sizeOf_spec]
      omega
  | _ => exact absurd h List.not_mem_nil

/-- Induction over a tree of nodes: what holds of a node whenever it holds of the nodes directly
below holds of all nodes. -/
theorem induct {motive : Node → Prop}
    (step : ∀ n : Node, (∀ c ∈ n.children, motive c) → motive n) (n : Node) : motive n :=
  step n fun c h =>
    have := sizeOf_lt_of_mem_children h
    induct step c
termination_by sizeOf n

theorem mem_subnodes_iff : d ∈ n.subnodes ↔ d = n ∨ ∃ c ∈ n.children, d ∈ c.subnodes := by
  rw [subnodes_eq, List.mem_cons, List.mem_flatMap]

theorem mem_subnodes_of_mem_children (hc : c ∈ n.children) (hd : d ∈ c.subnodes) :
    d ∈ n.subnodes :=
  mem_subnodes_iff.mpr (.inr ⟨c, hc, hd⟩)

theorem mem_subnodes_trans (hc : c ∈ n.subnodes) (hd : d ∈ c.subnodes) : d ∈ n.subnodes := by
  induction n using induct with
  | step n ih =>
    rcases mem_subnodes_iff.mp hc with rfl | ⟨k, hk, hck⟩
    · exact hd
    · exact mem_subnodes_of_mem_children hk (ih k hk hck)

/-- What is in a tree is no larger than the tree. -/
theorem sizeOf_le_of_mem_subnodes (h : d ∈ n.subnodes) : sizeOf d ≤ sizeOf n := by
  induction n using induct with
  | step n ih =>
    rcases mem_subnodes_iff.mp h with rfl | ⟨k, hk, hd⟩
    · exact Nat.le_refl _
    · exact (ih k hk hd).trans (Nat.le_of_lt (sizeOf_lt_of_mem_children hk))

/-- The nodes of a part of a tree are among those of the tree, in their order. -/
theorem subnodes_sublist (h : d ∈ n.subnodes) : d.subnodes.Sublist n.subnodes := by
  induction n using induct with
  | step n ih =>
    rcases mem_subnodes_iff.mp h with rfl | ⟨c, hc, hd⟩
    · exact .refl _
    · rw [subnodes_eq n]
      obtain ⟨l, r, hlr⟩ := List.append_of_mem hc
      rw [hlr, List.flatMap_append, List.flatMap_cons]
      exact (((ih c hc hd).trans (List.sublist_append_left _ _)).trans
        (List.sublist_append_right _ _)).cons n

/-- A label is defined by a tree if a node of it marks the label. -/
theorem defines_iff : n.defines l = true ↔ ∃ c ∈ n.subnodes, c.marks l = true := by
  induction n using induct with
  | step n ih =>
    rw [defines_eq, Bool.or_eq_true, List.any_eq_true]
    constructor
    · rintro (h | ⟨c, hc, h⟩)
      · exact ⟨n, n.self_mem_subnodes, h⟩
      · obtain ⟨d, hd, h⟩ := (ih c hc).mp h
        exact ⟨d, mem_subnodes_of_mem_children hc hd, h⟩
    · rintro ⟨d, hd, h⟩
      rcases mem_subnodes_iff.mp hd with rfl | ⟨c, hc, hd⟩
      · exact .inl h
      · exact .inr ⟨c, hc, (ih c hc).mpr ⟨d, hd, h⟩⟩

theorem count_marks_pos : 0 < n.count (marks l) ↔ n.defines l = true := by
  rw [count, List.countP_pos_iff, defines_iff]

theorem mem_children_iff : c ∈ n.children ↔ c ∈ n.parts ∨ ∃ h ∈ n.handlers, h.body = c := by
  cases n with
  | attempt body handlers cleanup =>
    simp only [children, parts, Node.handlers, List.mem_cons, List.mem_append, List.mem_map]
    rw [← or_assoc, or_right_comm]
  | _ => simp [children, parts, Node.handlers]

/-- What stands in a tree is one of its nodes. -/
theorem Stands.mem_subnodes {around : List Node} {hs : List (Handler Node)}
    (h : n.Stands around hs c) : c ∈ n.subnodes := by
  induction h with
  | here => exact self_mem_subnodes _
  | part _ mem ih =>
    refine mem_subnodes_trans ih (mem_subnodes_of_mem_children ?_ (self_mem_subnodes _))
    exact mem_children_iff.mpr (.inl mem)
  | handler _ mem ih =>
    refine mem_subnodes_trans ih (mem_subnodes_of_mem_children ?_ (self_mem_subnodes _))
    exact mem_children_iff.mpr (.inr ⟨_, mem, rfl⟩)

/-- Every node of a tree stands somewhere in it. -/
theorem exists_stands (h : c ∈ n.subnodes) : ∃ around hs, n.Stands around hs c := by
  induction n using induct with
  | step n ih =>
    rcases mem_subnodes_iff.mp h with rfl | ⟨d, hd, hc⟩
    · exact ⟨[], [], .here⟩
    · obtain ⟨around, hs, hstands⟩ := ih d hd hc
      rcases mem_children_iff.mp hd with hpart | ⟨k, hk, rfl⟩
      · exact ⟨_, _, (Stands.here.part hpart).trans hstands⟩
      · exact ⟨_, _, (Stands.here.handler hk).trans hstands⟩

/-- The nodes around a place are nodes of the tree. -/
theorem Stands.around_mem_subnodes {around : List Node} {hs : List (Handler Node)}
    (h : n.Stands around hs c) (hd : d ∈ around) : d ∈ n.subnodes := by
  induction h with
  | here => exact absurd hd List.not_mem_nil
  | part outer _ ih =>
    rcases List.mem_cons.mp hd with rfl | hd
    · exact outer.mem_subnodes
    · exact ih hd
  | handler outer _ ih =>
    rcases List.mem_cons.mp hd with rfl | hd
    · exact outer.mem_subnodes
    · exact ih hd

end Node

end StructuredFlow
