import Mathlib.Data.List.Flatten
import StructuredFlow.Proofs.Continuations
import StructuredFlow.Proofs.NodeTree

/-
  Where labels lead to. `Node.Continues` says what is left to do after a node of a program, by the
  place where the node stands. If no two labels with a place share a number, a label leads to what
  its place says, wherever the jump comes from (`Node.Continues.destination?_eq`).
-/

namespace StructuredFlow

theorem lookup_of_mem {α β : Type} [BEq α] [LawfulBEq α] {xs : List (α × β)} {a : α} {b : β}
    (h : (xs.map Prod.fst).Nodup) (hx : (a, b) ∈ xs) : xs.lookup a = some b := by
  obtain ⟨before, after, rfl⟩ := List.append_of_mem hx
  refine List.lookup_eq_some_iff.mpr ⟨before, after, rfl, fun p hp => ?_⟩
  rw [List.map_append, List.nodup_append] at h
  exact bne_iff_ne.mpr (h.2.2 p.1 (List.mem_map_of_mem hp) a List.mem_cons_self).symm

namespace Node

variable {root n c : Node} {k : Continuation} {ls : List Symbol} {l : LabelId}

/-- `n` stands in the program, where `k` is left to do after it and `ls` are the locals of the
blocks around. -/
inductive Continues (root : Node) : Node → Continuation → List Symbol → Prop
  | here : Continues root root [] []
  | row {locals body before n rest k ls} (outer : Continues root (block locals body) k ls)
      (split : body = before ++ n :: rest) :
      Continues root n (.statements rest :: k) (ls ++ locals)
  | yes {test yes no k ls} (outer : Continues root (branch test yes no) k ls) :
      Continues root yes k ls
  | no {test yes no k ls} (outer : Continues root (branch test yes no) k ls) :
      Continues root no k ls
  | body {body leave next k ls} (outer : Continues root (loop body leave next) k ls) :
      Continues root body (.again body :: k) ls
  | arm {value arms default c k ls} (outer : Continues root (switch value arms default) k ls)
      (mem : c ∈ arms.map Arm.body ++ default.toList) : Continues root c k ls

/-! ## The list of destinations -/

theorem mem_destinationsRow {body : List Node} {x : LabelId × Destination} :
    x ∈ destinationsRow body k ls ↔
      ∃ before n rest, body = before ++ n :: rest ∧
        x ∈ n.destinations (.statements rest :: k) ls := by
  induction body with
  | nil => simp [destinationsRow]
  | cons n body ih =>
    rw [destinationsRow, List.mem_append, ih]
    constructor
    · rintro (h | ⟨before, m, rest, rfl, h⟩)
      · exact ⟨[], n, body, rfl, h⟩
      · exact ⟨n :: before, m, rest, rfl, h⟩
    · rintro ⟨before, m, rest, hsplit, h⟩
      cases before with
      | nil =>
        cases hsplit
        exact .inl h
      | cons _ before =>
        cases hsplit
        exact .inr ⟨before, m, rest, rfl, h⟩

theorem destinationsArms_eq (arms : List (Arm Node)) :
    destinationsArms arms k ls = (arms.map Arm.body).flatMap (·.destinations k ls) := by
  induction arms with
  | nil => rfl
  | cons a arms ih =>
    obtain ⟨values, body⟩ := a
    rw [destinationsArms, ih]
    rfl

theorem destinations_switch (value : Expr) (arms : List (Arm Node)) (default : Option Node) :
    (switch value arms default).destinations k ls =
      (arms.map Arm.body ++ default.toList).flatMap (·.destinations k ls) := by
  cases default with
  | none => rw [destinations, destinationsArms_eq, Option.toList_none, List.append_nil]
  | some d =>
    rw [destinations, destinationsArms_eq, List.flatMap_append]
    exact congrArg _ (List.append_nil _).symm

/-- A node has the destinations that its place in the program says. -/
theorem Continues.destinations_subset (h : root.Continues n k ls) :
    n.destinations k ls ⊆ root.destinations [] [] := by
  induction h with
  | here => exact List.Subset.refl _
  | row _ split ih =>
    exact fun x hx => ih (mem_destinationsRow.mpr ⟨_, _, _, split, hx⟩)
  | yes _ ih => exact fun x hx => ih (List.mem_append_left _ hx)
  | no _ ih => exact fun x hx => ih (List.mem_append_right _ hx)
  | body _ ih => exact fun x hx => ih (List.mem_cons_of_mem _ (List.mem_cons_of_mem _ hx))
  | arm _ mem ih =>
    refine fun x hx => ih ?_
    rw [destinations_switch]
    exact List.mem_flatMap.mpr ⟨_, mem, hx⟩

/-- No label has more destinations than places. -/
theorem destinations_sublist (n : Node) (k : Continuation) (ls : List Symbol) :
    ((n.destinations k ls).map Prod.fst).Sublist (n.places.map Label.id) := by
  induction n using induct generalizing k ls with
  | step n ih =>
    rw [places_eq, List.map_append]
    cases n with
    | block locals body =>
      refine List.Sublist.trans ?_ (List.sublist_append_right _ _)
      show ((destinationsRow body k (ls ++ locals)).map Prod.fst).Sublist _
      induction body with
      | nil => exact List.Sublist.refl _
      | cons n body ihbody =>
        rw [destinationsRow, List.map_append]
        rw [children, List.flatMap_cons, List.map_append]
        refine (ih n List.mem_cons_self _ _).append (ihbody fun c hc => ?_)
        exact ih c (List.mem_cons_of_mem _ hc)
    | branch test yes no =>
      show ((yes.destinations k ls ++ no.destinations k ls).map Prod.fst).Sublist _
      rw [List.map_append, children, List.flatMap_cons, List.flatMap_singleton, List.map_append]
      exact (ih yes List.mem_cons_self _ _).append
        (ih no (List.mem_cons_of_mem _ (List.mem_singleton_self _)) _ _)
    | loop body leave next =>
      rw [children, List.flatMap_singleton]
      exact ((ih body (List.mem_singleton_self _) _ _).cons_cons _).cons_cons _
    | switch value arms default =>
      rw [destinations_switch, List.map_flatMap]
      show List.Sublist _ (((arms.map Arm.body ++ default.toList).flatMap places).map Label.id)
      rw [List.map_flatMap]
      exact List.Sublist.flatMap_right _ fun c hc => ih c hc k ls
    | label target default => exact List.Sublist.refl _
    | _ => exact List.nil_sublist _

/-- The locals around a place in a node come after those around the node. -/
theorem locals_destinations {x : LabelId × Destination} (hx : x ∈ n.destinations k ls) :
    ∃ inner, x.2.locals = ls ++ inner := by
  induction n using induct generalizing k ls with
  | step n ih =>
    cases n with
    | label target default =>
      obtain rfl := List.mem_singleton.mp hx
      exact ⟨[], (List.append_nil ls).symm⟩
    | block locals body =>
      obtain ⟨before, c, rest, rfl, hc⟩ := mem_destinationsRow.mp hx
      obtain ⟨inner, h⟩ := ih c (List.mem_append_right _ List.mem_cons_self) hc
      exact ⟨locals ++ inner, h.trans (List.append_assoc _ _ _)⟩
    | branch test yes no =>
      rcases List.mem_append.mp hx with hx | hx
      · exact ih yes List.mem_cons_self hx
      · exact ih no (List.mem_cons_of_mem _ (List.mem_singleton_self _)) hx
    | loop body leave next =>
      rcases List.mem_cons.mp hx with rfl | hx
      · exact ⟨[], (List.append_nil ls).symm⟩
      rcases List.mem_cons.mp hx with rfl | hx
      · exact ⟨[], (List.append_nil ls).symm⟩
      · exact ih body (List.mem_singleton_self _) hx
    | switch value arms default =>
      rw [destinations_switch] at hx
      obtain ⟨c, hc, hx⟩ := List.mem_flatMap.mp hx
      exact ih c hc hx
    | _ => cases hx

/-! ## Programs without guarded regions -/

/-- There is no guarded region in the tree. -/
def Unguarded (n : Node) : Prop :=
  ∀ body handlers cleanup, attempt body handlers cleanup ∉ n.subnodes

theorem Unguarded.child (h : n.Unguarded) (hc : c ∈ n.children) : c.Unguarded :=
  fun body handlers cleanup hmem =>
    h body handlers cleanup (mem_subnodes_of_mem_children hc hmem)

theorem Continues.unguarded (h : root.Continues n k ls) (hroot : root.Unguarded) : n.Unguarded := by
  induction h with
  | here => exact hroot
  | row _ split ih =>
    exact ih.child (split ▸ List.mem_append_right _ List.mem_cons_self)
  | yes _ ih => exact ih.child List.mem_cons_self
  | no _ ih => exact ih.child (List.mem_cons_of_mem _ (List.mem_singleton_self _))
  | body _ ih => exact ih.child (List.mem_singleton_self _)
  | arm _ mem ih => exact ih.child mem

/-- Every label that is marked in the tree leads somewhere in it. -/
theorem exists_destination (hn : n.Unguarded) (h : n.defines l = true) (k : Continuation)
    (ls : List Symbol) : ∃ there, (l, there) ∈ n.destinations k ls := by
  induction n using induct generalizing k ls with
  | step n ih =>
    rw [defines_eq, Bool.or_eq_true, List.any_eq_true] at h
    rcases h with hmarks | ⟨c, hc, h⟩
    · cases n with
      | label target default =>
        obtain rfl := beq_iff_eq.mp hmarks
        exact ⟨_, List.mem_singleton_self _⟩
      | _ => cases hmarks
    have hchild := ih c hc (hn.child hc) h
    cases n with
    | block locals body =>
      obtain ⟨before, rest, rfl⟩ := List.append_of_mem hc
      obtain ⟨there, hthere⟩ := hchild (.statements rest :: k) (ls ++ locals)
      exact ⟨there, mem_destinationsRow.mpr ⟨before, c, rest, rfl, hthere⟩⟩
    | branch test yes no =>
      obtain ⟨there, hthere⟩ := hchild k ls
      refine ⟨there, List.mem_append.mpr ?_⟩
      rcases List.mem_cons.mp hc with rfl | hc
      · exact .inl hthere
      · obtain rfl := List.mem_singleton.mp hc
        exact .inr hthere
    | loop body leave next =>
      obtain rfl := List.mem_singleton.mp hc
      obtain ⟨there, hthere⟩ := hchild (.again c :: k) ls
      exact ⟨there, List.mem_cons_of_mem _ (List.mem_cons_of_mem _ hthere)⟩
    | switch value arms default =>
      obtain ⟨there, hthere⟩ := hchild k ls
      refine ⟨there, ?_⟩
      rw [destinations_switch]
      exact List.mem_flatMap.mpr ⟨c, hc, hthere⟩
    | attempt body handlers cleanup => exact absurd (self_mem_subnodes _) (hn _ _ _)
    | _ => exact absurd hc List.not_mem_nil

/-- In a program whose places have distinct numbers, a label leads to what its place says. -/
theorem Continues.destination?_eq (h : root.Continues n k ls)
    (hroot : (root.places.map Label.id).Nodup) {there : Destination}
    (hthere : (l, there) ∈ n.destinations k ls) : root.destination? l = some there :=
  lookup_of_mem (hroot.sublist (destinations_sublist root [] [])) (h.destinations_subset hthere)

end Node

end StructuredFlow
