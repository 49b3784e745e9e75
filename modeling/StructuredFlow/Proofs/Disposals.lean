import StructuredFlow.Proofs.StaticScoping

/-
  Disposals in programs whose fragments have none. The only nodes that dispose of something are then
  the ends of resources and of walks, and each of these disposes of the variable of its own
  statement: no number is disposed of in two places (`Builder.Built.disposed_subperm`).
-/

namespace StructuredFlow

namespace Expr

/-- The operation stands somewhere in the expression. -/
inductive Has (op : Intrinsic) : Expr → Prop
  | here {args} : Has op (.intrinsic op args)
  | operand {e x} (mem : x ∈ e.children) (inside : Has op x) : Has op e

theorem not_has_of_leaf {e : Expr} {op : Intrinsic} (hleaf : e.children = [])
    (hop : ∀ args, e ≠ .intrinsic op args) : ¬ e.Has op := by
  intro h
  cases h with
  | here => exact hop _ rfl
  | operand mem => exact absurd (hleaf ▸ mem) List.not_mem_nil

/-- Resolving makes no operations. -/
theorem eq_intrinsic_of_resolve {scope : Fragment.Context} {e : Expr} {op : Intrinsic}
    {args : List Expr} {r r' : Resolution} (h : e.resolve scope r = .ok (.intrinsic op args) r') :
    ∃ args', e = .intrinsic op args' := by
  have hfill := (filled_of_resolve h).1
  cases e with
  | intrinsic op' args' =>
    cases hfill
    exact ⟨args', rfl⟩
  | param p =>
    rw [fill] at hfill
    cases hs : r.symbol? p.name with
    | none => rw [hs] at hfill; cases hfill
    | some s => rw [hs] at hfill; cases hfill
  | _ => cases hfill

end Expr

/-- The variable that a clause disposes of, if it does. -/
def Clause.disposed : Clause → List SymbolId
  | .reads (.intrinsic .dispose [.var x]) => [x.id]
  | _ => []

theorem Node.disposed_disposal (s : Symbol) :
    (disposal s).clauses.flatMap Clause.disposed = [s.id] := by
  unfold disposal
  dsimp only
  split <;> rfl

theorem Node.clauses_sublist {root n : Node} (hn : n ∈ root.subnodes) :
    n.clauses.Sublist root.clauses :=
  (subnodes_sublist hn).flatMap tells

namespace Builder

variable {F : Fragment → Prop} {b b' : Builder} {c : Chain} {ps os : List Symbol} {n : Nat}
  {extra : List Clause}

/-- What a fragment without disposals settles is none. -/
theorem Settles.disposed_eq {e : Expr} (h : b.Settles F c e)
    (hF : ∀ f, F f → ¬ f.body.Has .dispose) : (Clause.reads e).disposed = [] := by
  obtain ⟨f, hf, hresolve⟩ := h
  obtain ⟨r, r', -, hbody⟩ := Fragment.resolveIn_ok hresolve
  unfold Clause.disposed
  split
  next x heq =>
    obtain rfl := Clause.reads.inj heq
    obtain ⟨args, hargs⟩ := Expr.eq_intrinsic_of_resolve hbody
    exact absurd (hargs ▸ .here) (hF f hf)
  next => rfl

/-- An edit disposes of symbols whose numbers it takes. -/
theorem Tells.disposed_subperm (h : b.Tells F c ps os n extra)
    (hF : ∀ f, F f → ¬ f.body.Has .dispose) :
    (extra.flatMap Clause.disposed).Subperm (List.range' b.symbolCount n) := by
  cases h with
  | reads settled =>
    rw [List.flatMap_singleton, settled.disposed_eq hF]
    exact List.nil_subperm
  | @iteration collection iteratorType element name ty =>
    rw [Stmt.tells, List.flatMap_append, List.flatMap_cons, List.flatMap_cons, List.flatMap_append,
      Stmt.flatMap_disposal, Node.disposed_disposal]
    have hsingle : [b.symbolCount].Subperm (List.range' b.symbolCount 2) :=
      (List.singleton_sublist.mpr List.mem_cons_self).subperm
    show (([] ++ ([] ++ ((if _ then _ else _) ++ []))) ++ []).Subperm _
    rw [List.nil_append, List.nil_append, List.append_nil, List.append_nil]
    split
    · exact hsingle
    · exact List.nil_subperm
  | @resource ty producer name =>
    rw [Stmt.tells, List.flatMap_cons, List.flatMap_cons, Node.disposed_disposal]
    exact List.Subperm.refl _
  | _ => exact List.nil_subperm

/-- No number is disposed of in two places, if no fragment disposes of anything. -/
theorem Built.disposed_subperm (h : b.Built F) (hF : ∀ f, F f → ¬ f.body.Has .dispose) :
    (b.top.clauses.flatMap Clause.disposed).Subperm (List.range b.symbolCount) := by
  induction h with
  | empty options returnType => exact List.nil_subperm
  | @edit b b' built edit ih =>
    obtain ⟨c, params, owned, n, extra, -, htells, -, -, hcount, hclauses⟩ :=
      edit.tells built.numbered
    have hperm := hclauses.flatMap_right Clause.disposed
    rw [List.flatMap_append] at hperm
    refine hperm.subperm.trans ?_
    rw [hcount, List.range_eq_range', ← List.range'_append_1, Nat.zero_add, ← List.range_eq_range']
    exact ih.append (htells.disposed_subperm hF)

/-- The body of a resource's region does not dispose of the resource. -/
theorem Built.not_disposed {a : Artifact} (h : b.Built F) (hF : ∀ f, F f → ¬ f.body.Has .dispose)
    (ha : b.assemble = .ok a) {s : Symbol} {producer : Expr} {body : Node}
    (hregion : Node.withCleanup s producer body ∈ a.body.subnodes) {n : Node}
    (hn : n ∈ body.subnodes) : s.id ∉ n.tells.flatMap Clause.disposed := by
  obtain ⟨kept, ⟨dropped, -, hperm⟩, hclauses⟩ := clauses_of_assemble ha
  have hprogram : (a.body.clauses.flatMap Clause.disposed).Subperm (List.range b.symbolCount) := by
    rw [hclauses, List.flatMap_append, Clause.flatMap_defaults fun _ _ => rfl, List.append_nil]
    refine List.Subperm.trans ?_ (h.disposed_subperm hF)
    have hkept := hperm.flatMap_right Clause.disposed
    rw [List.flatMap_append] at hkept
    exact (List.sublist_append_left _ _).subperm.trans hkept.subperm
  have hnodup : (a.body.clauses.flatMap Clause.disposed).Nodup := by
    obtain ⟨ids, hids, hsublist⟩ := hprogram
    exact hids.nodup_iff.mp (List.nodup_range.sublist hsublist)
  -- The region disposes of the resource once at its end, so nothing is left for its body.
  have hinside := hnodup.sublist ((Node.clauses_sublist hregion).flatMap Clause.disposed)
  rw [Node.clauses_withCleanup, List.flatMap_cons, List.flatMap_cons, List.flatMap_append,
    Node.disposed_disposal] at hinside
  have hbody := List.disjoint_of_nodup_append hinside.of_append_right.of_append_right
  intro hs
  refine hbody (List.mem_flatMap.mpr ?_) (List.mem_singleton_self s.id)
  obtain ⟨cl, hcl, hid⟩ := List.mem_flatMap.mp hs
  exact ⟨cl, List.mem_flatMap.mpr ⟨n, hn, hcl⟩, hid⟩

end Builder

end StructuredFlow
