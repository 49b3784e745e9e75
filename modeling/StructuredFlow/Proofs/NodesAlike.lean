import StructuredFlow.Proofs.EmulatedRegions
import StructuredFlow.Proofs.LabelsClosed

/-
  Nodes that can stand for each other (`Node.Alike`). It is an equivalence, and a block without
  locals around a single node makes no difference (`Block.collapse_alike`). Nodes of alike parts are
  alike, wherever labels are apart and handlers and cleanups retain the jumps into them
  (`Node.Clear`); `Node.AlikeIfClear` carries that condition down to the parts, so that it has to be
  shown of a whole program only.
-/

namespace StructuredFlow

open Exec

variable {ω : Type}

namespace Node

/-- Each of the nodes emulates the other one. -/
structure Alike (ω : Type) (n n' : Node) : Prop where
  forth : n'.Emulates ω n
  back : n.Emulates ω n'

namespace Alike

variable {n n' n'' : Node}

theorem refl (n : Node) : n.Alike ω n :=
  ⟨.refl n, .refl n⟩

theorem symm (h : n.Alike ω n') : n'.Alike ω n :=
  ⟨h.back, h.forth⟩

theorem trans (h : n.Alike ω n') (h' : n'.Alike ω n'') : n.Alike ω n'' :=
  ⟨h'.forth.trans h.forth, h.back.trans h'.back⟩

theorem settling_iff (h : n.Alike ω n') {d : Option Descent} (hd : n.Has d) {m : Machine ω}
    {r : Report ω} : (n.settling d m).Comes r ↔ (n'.settling d m).Comes r :=
  ⟨h.forth.comes d m r hd, h.back.comes d m r (h.forth.has hd)⟩

theorem begin (h : n.Alike ω n') (hn : n.Retains ω) (hn' : n'.Retains ω) {m : Machine ω}
    {r : Report ω} :
    (⟨n, none, m⟩ : Call ω).begin.Comes r ↔ (⟨n', none, m⟩ : Call ω).begin.Comes r :=
  ⟨h.forth.begin hn.settled hn'.settled n.has_none,
    h.back.begin hn'.settled hn.settled n'.has_none⟩

end Alike

/-! ## Nodes that retain the jumps into them -/

theorem retains_of_defines {n : Node} (h : ∀ l, n.defines l = false) : n.Retains ω := by
  rintro d m r - ⟨l, v, m', rfl, hl⟩
  rw [h l] at hl
  cases hl

theorem block_retains (locals : List Symbol) (body : List Node) :
    (block locals body).Retains ω := by
  rintro d m r ⟨k, hk⟩ ⟨l, v, m', rfl, hl⟩
  have hnone := block_jump hk.execWithin_eq
  rw [defines_block, List.any_eq_true] at hl
  obtain ⟨c, hc, hl⟩ := hl
  rw [hnone c hc] at hl
  cases hl

theorem loop_retains (body : Node) (leave next : Label) : (loop body leave next).Retains ω := by
  rintro d m r ⟨k, hk⟩ ⟨l, v, m', rfl, hl⟩
  have hnone := (loop_jump hk.execWithin_eq).2.2
  rw [defines, hnone] at hl
  cases hl

/-- A jump that leaves a switch leads into none of its arms. -/
theorem arm_jump {bodies : List Node} {o : Option Node} {d : Option Descent} {m m' : Machine ω}
    {l : LabelId} {v : Option Value} {k : Nat}
    (h : (Turn.arm bodies o d m).Ends k (.ok (.jump l v) m')) :
    bodies.find? (·.defines l) = none := by
  induction k using Nat.strong_induction_on generalizing o d m with
  | _ k ih =>
    cases o with
    | none => cases h
    | some n =>
      cases h with
      | @call _ _ _ r₁ k₂ _ _ later =>
        cases r₁ with
        | error e m₁ => cases later
        | ok flow m₁ =>
          cases flow with
          | normal v => cases later
          | throw v => cases later
          | jump l' v' =>
            dsimp only [Waiting.resume] at later
            cases hfind : bodies.find? (·.defines l') with
            | none =>
              rw [hfind] at later
              cases later
              exact hfind
            | some n' =>
              rw [hfind] at later
              exact ih k₂ (by omega) later

theorem switch_retains (value : Expr) (arms : List (Arm Node)) (default : Option Node) :
    (switch value arms default).Retains ω := by
  rintro d m r ⟨k, hk⟩ ⟨l, v, m', rfl, hl⟩
  have hnone : (arms.map Arm.body ++ default.toList).find? (·.defines l) = none := by
    cases d with
    | some s => exact arm_jump hk
    | none =>
      dsimp only [Call.begin] at hk
      cases hchoice : (value.eval >>= fun v => select v arms) m with
      | ok found m₁ =>
        rw [hchoice] at hk
        exact arm_jump hk
      | error e m₁ =>
        rw [hchoice] at hk
        cases e <;> cases hk
  rw [defines_eq] at hl
  obtain ⟨c, hc, hl⟩ := List.any_eq_true.mp hl
  exact List.find?_eq_none.mp hnone c hc hl

/-- A conditional or a guarded region: a jump to a place in it may come out of it. -/
def leaks : Node → Bool
  | branch _ _ _ | attempt _ _ _ => true
  | _ => false

theorem retains_of_leaks {n : Node} (h : n.leaks = false) : n.Retains ω := by
  cases n with
  | branch | attempt => cases h
  | block locals body => exact block_retains locals body
  | loop body leave next => exact loop_retains body leave next
  | switch value arms default => exact switch_retains value arms default
  | label target default =>
    rintro d m r ⟨k, hk⟩ ⟨l, v, m', rfl, -⟩
    cases hk
  | _ => exact retains_of_defines fun _ => rfl

/-! ## Blocks that make no difference -/

/-- A block of a single node does what the node does as the only statement of a row. -/
theorem begin_wrapped {n : Node} {d : Option Descent} (hd : n.Has d) (m : Machine ω) :
    (⟨block [] [n], d, m⟩ : Call ω).begin = n.settling d m := by
  cases d with
  | none => rfl
  | some s =>
    have hplace : placeOf s.target [n] = [n] := by
      rw [placeOf, List.dropWhile_cons, hd s rfl]
      rfl
    show Turn.row [n] (placeOf s.target [n]) _ _ _ = _
    rw [hplace]
    rfl

theorem defines_wrapped (n : Node) (l : LabelId) : (block [] [n]).defines l = n.defines l := by
  rw [defines_block]
  exact Bool.or_false _

theorem Alike.wrapped (n : Node) : n.Alike ω (block [] [n]) := by
  constructor
  · refine ⟨defines_wrapped n, fun d m r hd hr => ?_⟩
    have hd' : (block [] [n]).Has d := fun s hs => (defines_wrapped n _).trans (hd s hs)
    rw [Turn.settling_iff (block_retains _ _).settled hd', begin_wrapped hd]
    exact hr
  · refine ⟨fun l => (defines_wrapped n l).symm, fun d m r hd hr => ?_⟩
    rw [Turn.settling_iff (block_retains _ _).settled hd,
      begin_wrapped fun s hs => (defines_wrapped n _).symm.trans (hd s hs)] at hr
    exact hr

theorem Alike.nothing : nop.Alike ω (block [] []) := by
  have hbegin : ∀ d (m : Machine ω),
      (⟨block [] [], d, m⟩ : Call ω).begin = (⟨nop, d, m⟩ : Call ω).begin := by
    intro d m
    cases d <;> rfl
  refine ⟨.of_begin (fun _ => rfl) fun d m r _ hr => ?_,
    .of_begin (fun _ => rfl) fun d m r _ hr => ?_⟩
  · rw [hbegin]
    exact hr
  · rw [← hbegin]
    exact hr

end Node

theorem Block.collapse_alike (B : Block) : B.collapse.Alike ω B.toNode := by
  obtain ⟨locals, nodes⟩ := B
  unfold collapse
  split
  next h =>
    cases h
    exact Node.Alike.nothing
  next n h =>
    cases h
    exact Node.Alike.wrapped n
  next h =>
    cases h
    exact Node.Alike.refl _

/-! ## Clear trees -/

namespace Node

/-- What a guarded region does about the end of its body: the handlers and the cleanup. -/
def responses : Node → List Node
  | attempt _ handlers cleanup => handlers.map Handler.body ++ cleanup.toList
  | _ => []

/-- No handler and no cleanup in the tree lets out a jump into itself. -/
def Confines (ω : Type) (n : Node) : Prop :=
  ∀ region ∈ n.subnodes, ∀ c ∈ region.responses, c.Retains ω

/-- Handlers and cleanups confine the jumps into them unless one is a lone conditional or guarded
region, and a label has its place there. -/
theorem confines_of_leaks {n : Node}
    (h : ∀ region ∈ n.subnodes, ∀ c ∈ region.responses,
      c.leaks = true → ∀ l, c.defines l = false) : n.Confines ω := by
  intro region hregion c hc
  cases hleaks : c.leaks with
  | false => exact retains_of_leaks hleaks
  | true => exact retains_of_defines (h region hregion c hc hleaks)

theorem confines_of_leaks_eq_false {n : Node}
    (h : ∀ region ∈ n.subnodes, ∀ c ∈ region.responses, c.leaks = false) : n.Confines ω :=
  confines_of_leaks fun region hregion c hc hleaks =>
    absurd hleaks (Bool.eq_false_iff.mp (h region hregion c hc))

/-- The labels with a place in the tree are told apart by their numbers, and handlers and cleanups
retain the jumps into them. -/
structure Clear (ω : Type) (n : Node) : Prop where
  nodup : (n.places.map Label.id).Nodup
  confines : n.Confines ω

theorem apart_of_nodup {ns : List Node} (h : ((ns.flatMap places).map Label.id).Nodup) :
    Apart ns := by
  induction ns with
  | nil => exact .nil
  | cons n ns ih =>
    rw [List.flatMap_cons, List.map_append, List.nodup_append] at h
    obtain ⟨-, hns, hdisjoint⟩ := h
    refine .cons (fun c hc l hl => ?_) (ih hns)
    refine Bool.eq_false_iff.mpr fun hl' => ?_
    obtain ⟨target, htarget, hid⟩ := exists_mem_places hl
    obtain ⟨target', htarget', hid'⟩ := exists_mem_places hl'
    refine hdisjoint _ (List.mem_map_of_mem htarget) _ (List.mem_map_of_mem ?_)
      (hid.trans hid'.symm)
    exact List.mem_flatMap.mpr ⟨c, hc, htarget'⟩

namespace Clear

variable {n c : Node}

theorem children_nodup (h : n.Clear ω) :
    ((n.children.flatMap places).map Label.id).Nodup := by
  have hnodup := h.nodup
  rw [places_eq, List.map_append] at hnodup
  exact hnodup.of_append_right

theorem apart (h : n.Clear ω) : Apart n.children :=
  apart_of_nodup h.children_nodup

theorem child (h : n.Clear ω) (hc : c ∈ n.children) : c.Clear ω where
  nodup :=
    h.children_nodup.sublist ((List.sublist_flatten_of_mem (List.mem_map_of_mem hc)).map Label.id)
  confines region hregion := h.confines region (mem_subnodes_of_mem_children hc hregion)

/-- The labels of a loop do not lead into its body. -/
theorem loop_apart {body : Node} {leave next : Label} (h : (loop body leave next).Clear ω) {l}
    (hl : body.defines l = true) : l ≠ leave.id ∧ l ≠ next.id := by
  obtain ⟨target, htarget, rfl⟩ := exists_mem_places hl
  have hnodup := h.nodup
  have hplaces : (loop body leave next).places = leave :: next :: (body.places ++ []) := places_eq _
  rw [hplaces, List.append_nil, List.map_cons, List.map_cons, List.nodup_cons,
    List.nodup_cons] at hnodup
  have hmem : target.id ∈ body.places.map Label.id := List.mem_map_of_mem htarget
  constructor
  · intro heq
    exact hnodup.1 (List.mem_cons_of_mem _ (heq ▸ hmem))
  · intro heq
    exact hnodup.2.1 (heq ▸ hmem)

end Clear

/-! ## Nodes of alike parts -/

/-- The nodes are alike if the first one is clear. -/
def AlikeIfClear (ω : Type) (n n' : Node) : Prop :=
  n.Clear ω → n.Alike ω n'

namespace AlikeIfClear

variable {body body' yes yes' no no' otherwise otherwise' : Node}

theorem refl (n : Node) : n.AlikeIfClear ω n :=
  fun _ => .refl n

/-- Of clear nodes that are alike one by one, each emulates the other. -/
theorem emulated {ns ns' : List Node} (h : List.Forall₂ (AlikeIfClear ω) ns ns')
    (hclear : ∀ n ∈ ns, n.Clear ω) : Emulated ω ns ns' ∧ Emulated ω ns' ns := by
  have hall : List.Forall₂ (Alike ω) ns ns' :=
    (forall₂_with_mem h).imp fun n _ hn => hn.2.2 (hclear n hn.1)
  exact ⟨hall.imp fun _ _ hn => hn.forth, (hall.imp fun _ _ hn => hn.symm.forth).flip⟩

theorem block (locals : List Symbol) {ns ns' : List Node}
    (h : List.Forall₂ (AlikeIfClear ω) ns ns') :
    (Node.block locals ns).AlikeIfClear ω (.block locals ns') := by
  intro hclear
  obtain ⟨hforth, hback⟩ := emulated h fun _ hn => hclear.child hn
  exact ⟨.block locals hforth hclear.apart,
    .block locals hback (Apart.emulated hclear.apart hforth)⟩

theorem branch (test : Expr) (hyes : yes.AlikeIfClear ω yes') (hno : no.AlikeIfClear ω no') :
    (Node.branch test yes no).AlikeIfClear ω (.branch test yes' no') := by
  intro hclear
  have hyes := hyes (hclear.child List.mem_cons_self)
  have hno := hno (hclear.child (List.mem_cons_of_mem _ (List.mem_singleton_self _)))
  have hapart : Apart [yes', no'] :=
    Apart.emulated hclear.apart (.cons hyes.forth (.cons hno.forth .nil))
  exact ⟨.branch test hyes.forth hno.forth hclear.apart, .branch test hyes.back hno.back hapart⟩

theorem loop (h : body.AlikeIfClear ω body') (leave next : Label) :
    (Node.loop body leave next).AlikeIfClear ω (.loop body' leave next) := by
  intro hclear
  have hbody := h (hclear.child (List.mem_singleton_self _))
  refine ⟨.loop hbody.forth fun l hl => hclear.loop_apart hl, .loop hbody.back fun l hl => ?_⟩
  exact hclear.loop_apart ((hbody.back.defines l).trans hl)

theorem switch (value : Expr) {arms arms' : List (Arm Node)} {default default' : Option Node}
    (harms : List.Forall₂ (fun a a' => a'.values = a.values ∧ a.body.AlikeIfClear ω a'.body)
      arms arms')
    (hdefault : Option.Rel (AlikeIfClear ω) default default') :
    (Node.switch value arms default).AlikeIfClear ω (.switch value arms' default') := by
  intro hclear
  have hall : List.Forall₂ (fun a a' => a'.values = a.values ∧ a.body.Alike ω a'.body)
      arms arms' := by
    refine (forall₂_with_mem harms).imp fun a _ ha => ⟨ha.2.2.1, ha.2.2.2 (hclear.child ?_)⟩
    exact List.mem_append_left _ (List.mem_map_of_mem ha.1)
  have hforth := hall.imp fun _ _ ha => And.intro ha.1 ha.2.forth
  have hback := (hall.imp fun _ _ ha => And.intro ha.1.symm ha.2.back).flip
  have hdefaults : Option.Rel (fun c c' => c'.Emulates ω c) default default' ∧
      Option.Rel (fun c c' => c'.Emulates ω c) default' default := by
    cases hdefault with
    | none => exact ⟨.none, .none⟩
    | some hc =>
      have hc := hc (hclear.child (List.mem_append_right _ (List.mem_singleton_self _)))
      exact ⟨.some hc.forth, .some hc.back⟩
  exact ⟨.switch value hforth hdefaults.1 hclear.apart, .switch value hback hdefaults.2
    (Apart.emulated hclear.apart (emulated_bodies hforth hdefaults.1))⟩

/-- The parts of a clear guarded region and of one with alike parts emulate each other. -/
theorem region (hbody : body.AlikeIfClear ω body') {handlers handlers' : List (Handler Node)}
    {cleanup cleanup' : Option Node}
    (hhandlers : List.Forall₂ (fun h h' => h'.kind = h.kind ∧ h'.binding = h.binding ∧
      h.body.AlikeIfClear ω h'.body ∧ h'.body.Settled ω) handlers handlers')
    (hcleanup : Option.Rel (fun c c' => c.AlikeIfClear ω c' ∧ c'.Settled ω) cleanup cleanup')
    (hclear : (Node.attempt body handlers cleanup).Clear ω) :
    RegionEmulated ω body body' handlers handlers' cleanup cleanup' ∧
      RegionEmulated ω body' body handlers' handlers cleanup' cleanup := by
  have hbody := hbody (hclear.child List.mem_cons_self)
  have hinside : ∀ c ∈ handlers.map Handler.body ++ cleanup.toList, c.Clear ω ∧ c.Settled ω :=
    fun c hc => ⟨hclear.child (List.mem_cons_of_mem _ hc),
      (hclear.confines _ (self_mem_subnodes _) c hc).settled⟩
  have hall : List.Forall₂ (fun h h' => h.Emulated ω h' ∧ h'.Emulated ω h) handlers handlers' := by
    refine (forall₂_with_mem hhandlers).imp fun h h' ⟨hmem, _, hkind, hbinding, halike, hsettled'⟩ => ?_
    obtain ⟨hclear, hsettled⟩ := hinside _ (List.mem_append_left _ (List.mem_map_of_mem hmem))
    exact ⟨⟨hkind, hbinding, (halike hclear).forth, hsettled, hsettled'⟩,
      ⟨hkind.symm, hbinding.symm, (halike hclear).back, hsettled', hsettled⟩⟩
  have hcleanups : Option.Rel (fun c c' => c'.Emulates ω c ∧ c.Settled ω ∧ c'.Settled ω)
      cleanup cleanup' ∧ Option.Rel (fun c c' => c'.Emulates ω c ∧ c.Settled ω ∧ c'.Settled ω)
      cleanup' cleanup := by
    cases hcleanup with
    | none => exact ⟨.none, .none⟩
    | some hc =>
      obtain ⟨hclear, hsettled⟩ := hinside _ (List.mem_append_right _ (List.mem_singleton_self _))
      exact ⟨.some ⟨(hc.1 hclear).forth, hsettled, hc.2⟩,
        .some ⟨(hc.1 hclear).back, hc.2, hsettled⟩⟩
  exact ⟨⟨hbody.forth, hall.imp fun _ _ h => h.1, hcleanups.1⟩,
    ⟨hbody.back, (hall.imp fun _ _ h => h.2).flip, hcleanups.2⟩⟩

theorem attempt (hbody : body.AlikeIfClear ω body') {handlers handlers' : List (Handler Node)}
    {cleanup cleanup' : Option Node}
    (hhandlers : List.Forall₂ (fun h h' => h'.kind = h.kind ∧ h'.binding = h.binding ∧
      h.body.AlikeIfClear ω h'.body ∧ h'.body.Settled ω) handlers handlers')
    (hcleanup : Option.Rel (fun c c' => c.AlikeIfClear ω c' ∧ c'.Settled ω) cleanup cleanup') :
    (Node.attempt body handlers cleanup).AlikeIfClear ω (.attempt body' handlers' cleanup') := by
  intro hclear
  obtain ⟨hforth, hback⟩ := region hbody hhandlers hcleanup hclear
  exact ⟨.attempt hforth, .attempt hback⟩

/-! ### Nodes that assembly makes -/

theorem ofLinks {links links' : List (Expr × Node)}
    (h : List.Forall₂ (fun l l' => l'.1 = l.1 ∧ l.2.AlikeIfClear ω l'.2) links links')
    (hotherwise : otherwise.AlikeIfClear ω otherwise') :
    (Node.ofLinks links otherwise).AlikeIfClear ω (.ofLinks links' otherwise') := by
  induction h with
  | nil => exact hotherwise
  | @cons l l' links links' hl _ ih =>
    show (Node.branch l.1 l.2 _).AlikeIfClear ω (.branch l'.1 l'.2 _)
    rw [hl.1]
    exact branch l.1 hl.2 ih

theorem ofLoop (l : Loop) (h : body.AlikeIfClear ω body') :
    (Node.ofLoop l body).AlikeIfClear ω (.ofLoop l body') :=
  loop (branch l.condition h (.refl _)) l.leave l.next

theorem disposal_retains (s : Symbol) : (disposal s).Retains ω := by
  refine retains_of_defines fun l => ?_
  unfold disposal
  dsimp only
  split <;> rfl

theorem withCleanup (s : Symbol) (producer : Expr) (h : body.AlikeIfClear ω body') :
    (Node.withCleanup s producer body).AlikeIfClear ω (.withCleanup s producer body') :=
  block [s] (.cons (.refl _) (.cons
    (attempt h .nil (.some ⟨.refl _, (disposal_retains s).settled⟩)) .nil))

theorem ofIteration (iterator : Symbol) (collection : Expr) (h : body.AlikeIfClear ω body') :
    (Node.ofIteration iterator collection body).AlikeIfClear ω
      (.ofIteration iterator collection body') := by
  unfold Node.ofIteration
  dsimp only
  split
  · exact withCleanup iterator _ h
  · exact block [iterator] (.cons (.refl _) (.cons h .nil))

end AlikeIfClear

end Node

end StructuredFlow
