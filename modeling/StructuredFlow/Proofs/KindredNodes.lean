import StructuredFlow.Proofs.CollapseTransparent
import StructuredFlow.Proofs.NodeReplace

/-
  Alike nodes in the same place of a tree. The body of a handler may only be replaced by a node that
  lets out no jumps into itself, and that two nodes are alike does not say that. So it is said as
  well that the jumps which come out of one come out of the other (`Node.Kindred`); then kindred nodes
  in the same place make kindred trees (`Node.KindredIfClear.replace`).
-/

namespace StructuredFlow

open Exec

variable {ω : Type}

namespace Turn

/-- What a node settles with comes out of it in the end, entered there or at a place in it. -/
theorem Comes.of_settling {n : Node} {d : Option Descent} {m : Machine ω} {r : Report ω}
    (h : (n.settling d m).Comes r) : (⟨n, d, m⟩ : Call ω).begin.Comes r ∨
      ∃ s m₁, n.defines s.target = true ∧ (⟨n, some s, m₁⟩ : Call ω).begin.Comes r := by
  obtain ⟨k, hk⟩ := h
  induction k using Nat.strong_induction_on generalizing d m with
  | _ k ih =>
    cases hk with
    | @call _ _ k₁ r₁ k₂ _ inner later =>
      by_cases hr₁ : n.Reenters r₁
      · obtain ⟨l, v, m₁, rfl, hl⟩ := hr₁
        rw [Node.resume_of_reenters hl] at later
        rcases ih k₂ (by omega) later with hbegin | hlater
        · exact .inr ⟨⟨l, v⟩, m₁, hl, hbegin⟩
        · exact .inr hlater
      · rw [Node.resume_of_not_reenters hr₁] at later
        cases later
        exact .inl ⟨k₁, inner⟩

end Turn

namespace Node

/-- A conditional in which a place is sought goes on with the part that has the place. -/
theorem begin_branch_sought (test : Expr) {yes no c : Node} (hapart : Apart [yes, no])
    (hc : c ∈ [yes, no]) {s : Descent} (hs : c.defines s.target = true) (m : Machine ω) :
    (⟨branch test yes no, some s, m⟩ : Call ω).begin = .tail ⟨c, some s, m⟩ := by
  have hbranch : (branch test yes no).defines s.target = true := defines_of_mem_children hc hs
  have hfind := find?_pair hbranch
  rw [hapart.find?_eq hc hs] at hfind
  rw [Option.some.inj hfind]
  rfl

/-- The nodes are alike, and a jump that comes out of the second one comes out of the first, entered
there or at a place in it. -/
structure Kindred (ω : Type) (n n' : Node) : Prop where
  alike : n.Alike ω n'
  jumps : ∀ d (m : Machine ω) l v m', n.Has d →
    (⟨n', d, m⟩ : Call ω).begin.Comes (.ok (.jump l v) m') →
    (⟨n, d, m⟩ : Call ω).begin.Comes (.ok (.jump l v) m') ∨
      ∃ s m₁, n.defines s.target = true ∧
        (⟨n, some s, m₁⟩ : Call ω).begin.Comes (.ok (.jump l v) m')

namespace Kindred

variable {n n' : Node}

/-- Alike nodes are kindred if the second one lets out no jumps into itself. -/
theorem of_settled (h : n.Alike ω n') (hsettled : n'.Settled ω) : n.Kindred ω n' := by
  refine ⟨h, fun d m l v m' hd hjump => ?_⟩
  have hsettles := (Turn.settling_iff hsettled (h.forth.has hd)).mpr hjump
  exact ((h.settling_iff hd).mpr hsettles).of_settling

theorem refl (n : Node) : n.Kindred ω n :=
  ⟨.refl n, fun _ _ _ _ _ _ => .inl⟩

/-- If no jump into the first of two kindred nodes comes out of it, none into the second does. -/
theorem settled (h : n.Kindred ω n') (hn : n.Settled ω) : n'.Settled ω := by
  rintro d m r hd hr ⟨l, v, m', rfl, hl⟩
  rw [h.alike.forth.defines] at hl
  have hd : n.Has d := h.alike.back.has hd
  rcases h.jumps d m l v m' hd hr with hjump | ⟨s, m₁, hs, hjump⟩
  · exact hn d m _ hd hjump ⟨l, v, m', rfl, hl⟩
  · exact hn (some s) m₁ _ (has_some hs) hjump ⟨l, v, m', rfl, hl⟩

end Kindred

/-- The nodes are kindred if the first one is clear. -/
def KindredIfClear (ω : Type) (n n' : Node) : Prop :=
  n.Clear ω → n.Kindred ω n'

namespace KindredIfClear

variable {f g : Node → Node} {n n' : Node}

theorem alikeIfClear (h : n.KindredIfClear ω n') : n.AlikeIfClear ω n' :=
  fun hclear => (h hclear).alike

theorem of_alikeIfClear (h : n.AlikeIfClear ω n') (hn' : n'.Retains ω) : n.KindredIfClear ω n' :=
  fun hclear => .of_settled (h hclear) hn'.settled

theorem branch (test : Expr) {yes yes' no no' : Node} (hyes : yes.KindredIfClear ω yes')
    (hno : no.KindredIfClear ω no') :
    (Node.branch test yes no).KindredIfClear ω (.branch test yes' no') := by
  intro hclear
  have hno_mem : no ∈ [yes, no] := List.mem_cons_of_mem _ (List.mem_singleton_self no)
  have halike := AlikeIfClear.branch test hyes.alikeIfClear hno.alikeIfClear hclear
  have hyes := hyes (hclear.child List.mem_cons_self)
  have hno := hno (hclear.child hno_mem)
  refine ⟨halike, fun d m l v m' hd hjump => ?_⟩
  have hapart' : Apart [yes', no'] :=
    Apart.emulated hclear.apart (.cons hyes.alike.forth (.cons hno.alike.forth .nil))
  -- A jump comes out of a part that is entered as the conditional is, or at a place in it.
  have hpart : ∀ c c' m₁, c ∈ [yes, no] → c.Kindred ω c' → c.Has d →
      (⟨c', d, m₁⟩ : Call ω).begin.Comes (.ok (.jump l v) m') →
      (⟨c, d, m₁⟩ : Call ω).begin.Comes (.ok (.jump l v) m') ∨
        ∃ s m₂, (Node.branch test yes no).defines s.target = true ∧
          (⟨.branch test yes no, some s, m₂⟩ : Call ω).begin.Comes (.ok (.jump l v) m') := by
    intro c c' m₁ hc hkindred hd hjump
    rcases hkindred.jumps d m₁ l v m' hd hjump with hbegin | ⟨s, m₂, hs, hbegin⟩
    · exact .inl hbegin
    · refine .inr ⟨s, m₂, defines_of_mem_children hc hs, ?_⟩
      rw [begin_branch_sought test hclear.apart hc hs, Turn.comes_tail]
      exact hbegin
  cases d with
  | some s =>
    obtain ⟨c, c', hc, hc', hkindred, hs⟩ : ∃ c c', c ∈ [yes, no] ∧ c' ∈ [yes', no'] ∧
        c.Kindred ω c' ∧ c.defines s.target = true := by
      by_cases hyes_s : yes.defines s.target = true
      · exact ⟨yes, yes', List.mem_cons_self, List.mem_cons_self, hyes, hyes_s⟩
      · have hfound := List.find?_some (find?_pair (hd s rfl))
        rw [if_neg hyes_s] at hfound
        exact ⟨no, no', hno_mem, List.mem_cons_of_mem _ (List.mem_singleton_self _), hno, hfound⟩
    have hs' : c'.defines s.target = true := (hkindred.alike.forth.defines _).trans hs
    rw [begin_branch_sought test hapart' hc' hs', Turn.comes_tail] at hjump
    rw [begin_branch_sought test hclear.apart hc hs, Turn.comes_tail]
    exact hpart c c' m hc hkindred (has_some hs) hjump
  | none =>
    rcases begin_branch test m with ⟨holds, m₁, hbegin⟩ | ⟨r, hbegin, hnot⟩
    · rw [hbegin, Turn.comes_tail] at hjump
      rw [hbegin, Turn.comes_tail]
      cases holds with
      | true => exact hpart yes yes' m₁ List.mem_cons_self hyes yes.has_none hjump
      | false => exact hpart no no' m₁ hno_mem hno no.has_none hjump
    · rw [hbegin] at hjump
      obtain ⟨k, hk⟩ := hjump
      cases hk
      exact absurd rfl (hnot l v m')

theorem attempt {body body' : Node} {handlers handlers' : List (Handler Node)}
    {cleanup cleanup' : Option Node} (hbody : body.KindredIfClear ω body')
    (hhandlers : List.Forall₂ (fun h h' => h'.kind = h.kind ∧ h'.binding = h.binding ∧
      h.body.KindredIfClear ω h'.body) handlers handlers')
    (hcleanup : Option.Rel (KindredIfClear ω) cleanup cleanup') :
    (Node.attempt body handlers cleanup).KindredIfClear ω (.attempt body' handlers' cleanup') := by
  intro hclear
  have hsettled : ∀ c c', c ∈ handlers.map Handler.body ++ cleanup.toList →
      c.KindredIfClear ω c' → c.AlikeIfClear ω c' ∧ c'.Settled ω := by
    intro c c' hc hkindred
    have hretains := hclear.confines _ (self_mem_subnodes _) c hc
    exact ⟨hkindred.alikeIfClear,
      (hkindred (hclear.child (List.mem_cons_of_mem _ hc))).settled hretains.settled⟩
  have hhandlers' : List.Forall₂ (fun h h' => h'.kind = h.kind ∧ h'.binding = h.binding ∧
      h.body.AlikeIfClear ω h'.body ∧ h'.body.Settled ω) handlers handlers' := by
    refine (forall₂_with_mem hhandlers).imp ?_
    rintro h h' ⟨hmem, -, hkind, hbinding, hkindred⟩
    have hinside : h.body ∈ handlers.map Handler.body ++ cleanup.toList :=
      List.mem_append_left _ (List.mem_map_of_mem hmem)
    exact ⟨hkind, hbinding, hsettled _ _ hinside hkindred⟩
  have hcleanup' : Option.Rel (fun c c' => c.AlikeIfClear ω c' ∧ c'.Settled ω)
      cleanup cleanup' := by
    cases hcleanup with
    | none => exact .none
    | some hc => exact .some (hsettled _ _ (List.mem_append_right _ (List.mem_singleton_self _)) hc)
  obtain ⟨hforth, hback⟩ := AlikeIfClear.region hbody.alikeIfClear hhandlers' hcleanup' hclear
  refine ⟨⟨.attempt hforth, .attempt hback⟩, fun d m l v m' _ hjump => .inl ?_⟩
  exact Turn.Matches.comes (fun _ _ => RegionAlike.matches hback) (.region d m) hjump

/-- Nodes with kindred nodes below them are kindred. -/
theorem mapChildren (h : ∀ c ∈ n.children, (f c).KindredIfClear ω (g c)) :
    (n.mapChildren f).KindredIfClear ω (n.mapChildren g) := by
  cases n with
  | block locals body =>
    have hbody : List.Forall₂ (AlikeIfClear ω) (body.map f) (body.map g) :=
      forall₂_map_map fun c hc => (h c hc).alikeIfClear
    exact .of_alikeIfClear (.block locals hbody) (block_retains _ _)
  | branch test yes no =>
    exact .branch test (h yes List.mem_cons_self)
      (h no (List.mem_cons_of_mem _ (List.mem_singleton_self no)))
  | loop body leave next =>
    have hbody := (h body (List.mem_singleton_self body)).alikeIfClear
    exact .of_alikeIfClear (.loop hbody leave next) (loop_retains _ _ _)
  | switch value arms default =>
    refine .of_alikeIfClear (.switch value (forall₂_map_map fun a ha => ⟨rfl, ?_⟩) ?_)
      (switch_retains _ _ _)
    · exact (h a.body (List.mem_append_left _ (List.mem_map_of_mem ha))).alikeIfClear
    · cases default with
      | none => exact .none
      | some c =>
        exact .some (h c (List.mem_append_right _ (List.mem_singleton_self c))).alikeIfClear
  | attempt body handlers cleanup =>
    refine .attempt (h body List.mem_cons_self) (forall₂_map_map fun k hk => ⟨rfl, rfl, ?_⟩) ?_
    · exact h k.body (List.mem_cons_of_mem _ (List.mem_append_left _ (List.mem_map_of_mem hk)))
    · cases cleanup with
      | none => exact .none
      | some c =>
        refine .some (h c (List.mem_cons_of_mem _ (List.mem_append_right _ ?_)))
        exact List.mem_singleton_self c
  | _ => exact fun _ => .refl _

/-- Kindred nodes put into the same place of a tree make kindred trees. -/
theorem replace {new new' : Node} (h : new.KindredIfClear ω new') (old n : Node) :
    (Node.replace old new n).KindredIfClear ω (Node.replace old new' n) := by
  induction n using induct with
  | step n ih =>
    by_cases hn : n = old
    · rw [hn, replace_self, replace_self]
      exact h
    · rw [replace_of_ne hn, replace_of_ne hn]
      exact mapChildren ih

end KindredIfClear

end Node

end StructuredFlow
