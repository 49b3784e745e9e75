import StructuredFlow.Proofs.Reachable

/-
  Along a chain no name is owned twice, by locals or by symbols of the construct around
  (`Builder.NamesApart`). Every edit keeps this: a scope in the tree gets a name only if its chain
  and the scopes inside of it are without the name, and a scope that is new has no scopes inside
  and stands under a chain without the name. So the symbol that a name stands for is the visible
  one of that name.
-/

namespace StructuredFlow

namespace Chain

/-- The names along a chain. -/
def names (c : Chain) : List String :=
  (c.flatMap Frame.symbols).filterMap Symbol.name

theorem mem_names {c : Chain} {name : String} :
    name ∈ c.names ↔ ∃ fr ∈ c, ∃ x ∈ fr.symbols, x.name = some name := by
  simp only [names, List.mem_filterMap, List.mem_flatMap]
  constructor
  · rintro ⟨x, ⟨fr, hfr, hx⟩, hn⟩
    exact ⟨fr, hfr, x, hx, hn⟩
  · rintro ⟨fr, hfr, x, hx, hn⟩
    exact ⟨x, ⟨fr, hfr, hx⟩, hn⟩

theorem notMem_names_of_lookup {c : Chain} {name : String} (h : c.lookup name = none) :
    name ∉ c.names := by
  intro hmem
  obtain ⟨fr, hfr, x, hx, hn⟩ := mem_names.mp hmem
  have hfree : fr.named? name = none := List.findSome?_eq_none_iff.mp h fr hfr
  exact List.find?_eq_none.mp hfree x hx (Symbol.isNamed_iff.mpr hn)

/-- A name along a chain stands for some symbol of the name there. -/
theorem exists_lookup_of_mem {c : Chain} {fr : Frame} {x : Symbol} {name : String} (hfr : fr ∈ c)
    (hx : x ∈ fr.symbols) (hn : x.name = some name) :
    ∃ y, c.lookup name = some y ∧ y.name = some name ∧ y ∈ c.flatMap Frame.symbols := by
  cases h : c.lookup name with
  | none => exact absurd (mem_names.mpr ⟨fr, hfr, x, hx, hn⟩) (notMem_names_of_lookup h)
  | some y =>
    obtain ⟨fr', hfr', hy⟩ := List.exists_of_findSome?_eq_some h
    have hy : fr'.symbols.find? (·.isNamed name) = some y := hy
    have hyn := List.find?_some hy
    refine ⟨y, rfl, Symbol.isNamed_iff.mp hyn, ?_⟩
    exact List.mem_flatMap.mpr ⟨fr', hfr', List.mem_of_find?_eq_some hy⟩

end Chain

namespace Scope

variable {root s u : Scope} {outer o : Chain}

/-- A scope has another number than those around it. -/
theorem Within.id_notMem_outer (h : Within root outer s) (hroot : root.Distinct) :
    s.frame.id ∉ outer.map Frame.id := by
  intro hmem
  obtain ⟨fr, hfr, hid⟩ := List.mem_map.mp hmem
  obtain ⟨t, inner, o, ht, rfl, -, ho⟩ := h.around hfr
  obtain ⟨rfl, -⟩ := ht.unique hroot h hid
  have := congrArg List.length ho
  simp only [List.length_append, List.length_cons] at this
  omega

theorem Within.ids_nodup (h : Within root outer s) (hroot : root.Distinct) :
    ((s.frame :: outer).map Frame.id).Nodup := by
  induction h with
  | here => exact List.nodup_singleton _
  | inside hs hc ih => exact List.nodup_cons.mpr ⟨(hs.inside hc).id_notMem_outer hroot, ih⟩

/-- A chain that leads through a scope is the chain of that scope, continued inside of it. -/
theorem Within.on_chain (hroot : root.Distinct) (hs : Within root outer s)
    (hu : Within root o u) (hmem : s.frame ∈ u.frame :: o) :
    ∃ inner, Within s inner u ∧ o = inner ++ outer := by
  rcases List.mem_cons.mp hmem with heq | hmem
  · obtain ⟨rfl, rfl⟩ := hs.unique hroot hu (congrArg Frame.id heq)
    exact ⟨[], .here, rfl⟩
  · obtain ⟨t, inner, o', ht, hframe, hin, rfl⟩ := hu.around hmem
    obtain ⟨rfl, rfl⟩ := ht.unique hroot hs (congrArg Frame.id hframe)
    refine ⟨inner ++ [t.frame], ?_, by simp⟩
    exact hframe ▸ hin

/-- One number, one frame. -/
theorem Distinct.frame_unique (h : root.Distinct) {f g : Frame} (hf : f ∈ root.frames)
    (hg : g ∈ root.frames) (hid : f.id = g.id) : f = g := by
  obtain ⟨_, s, hs, rfl⟩ := mem_frames_iff.mp hf
  obtain ⟨_, t, ht, rfl⟩ := mem_frames_iff.mp hg
  rw [(hs.unique h ht hid).2]

/-- A name that no scope inside has, and that is new along the chain of the scope, is new along
every chain that leads through the scope. -/
theorem Within.notMem_names (hroot : root.Distinct) (hs : Within root outer s)
    (hu : Within root o u) (hmem : s.frame ∈ u.frame :: o) {name : String}
    (new : Chain.lookup (s.frame :: outer) name = none) (newInside : s.hasNameInside name = false) :
    name ∉ Chain.names (u.frame :: o) := by
  obtain ⟨inner, hin, rfl⟩ := hs.on_chain hroot hu hmem
  intro hname
  obtain ⟨fr, hfr, x, hx, hn⟩ := Chain.mem_names.mp hname
  have hcases : fr ∈ s.frame :: outer ∨ fr ∈ s.frames.tail := by
    rw [← List.cons_append, List.mem_append] at hfr
    rcases hfr with hfr | hfr
    · have := hin.mem_frames hfr
      rw [frames_eq, List.mem_cons] at this
      rw [frames_eq, List.tail_cons, List.mem_cons]
      exact this.imp_left .inl
    · exact .inl (List.mem_cons_of_mem _ hfr)
  rcases hcases with hfr | hfr
  · exact Chain.notMem_names_of_lookup new (Chain.mem_names.mpr ⟨fr, hfr, x, hx, hn⟩)
  · have hfree := List.any_eq_false.mp newInside fr hfr
    have hnone : fr.named? name = none := by simpa using hfree
    exact List.find?_eq_none.mp hnone x hx (Symbol.isNamed_iff.mpr hn)

end Scope

namespace Builder

variable {F : Fragment → Prop} {b b' : Builder}

/-- No name is owned twice along a chain. -/
def NamesApart (b : Builder) : Prop :=
  ∀ outer s, b.top.Within outer s → (Chain.names (s.frame :: outer)).Nodup

/-- A symbol with a new name keeps names apart on a chain that it comes into. -/
theorem names_nodup_swap {c : Chain} {fr new : Frame} {x : Symbol} {name : String}
    (hids : (c.map Frame.id).Nodup) (hmem : fr ∈ c) (symbols : new.symbols.Perm (x :: fr.symbols))
    (hx : x.name = some name) (hname : name ∉ c.names) (hc : c.names.Nodup) :
    (Chain.names (c.map (Scope.swapFrame fr.id new))).Nodup := by
  have hperm : ((c.map (Scope.swapFrame fr.id new)).flatMap Frame.symbols).Perm
      (x :: c.flatMap Frame.symbols) :=
    flatMap_symbols_perm (g := fun _ => new) hids hmem symbols
  have hnames : (Chain.names (c.map (Scope.swapFrame fr.id new))).Perm (name :: c.names) := by
    have := hperm.filterMap Symbol.name
    rwa [List.filterMap_cons, hx] at this
  exact hnames.nodup_iff.mpr (List.nodup_cons.mpr ⟨hname, hc⟩)

theorem Reshapes.namesApart (h : b.Reshapes b') (hn : b.Numbered) (hb : b.NamesApart) :
    b'.NamesApart := by
  have hdistinct := hn.distinct
  cases h with
  | @symbol outer s x name g place top id symbols named new newInside =>
    intro outer' t ht
    rw [top] at ht
    rcases place.of_update hdistinct rfl ht with ⟨o, u, hu, rfl, rfl⟩ | ⟨c, hc, hnew, -⟩
    · rw [place.frame_update hdistinct rfl hu, ← List.map_cons]
      by_cases hmem : s.frame ∈ u.frame :: o
      · have hname := place.notMem_names hdistinct hu hmem new newInside
        exact names_nodup_swap (hu.ids_nodup hdistinct) hmem symbols named hname (hb o u hu)
      · have hsame : (u.frame :: o).map (Scope.swapFrame s.frame.id (s.modifyFrame g).frame) =
            u.frame :: o := by
          refine (List.map_congr_left fun fr hfr => ?_).trans (List.map_id _)
          refine Scope.swapFrame_of_ne fun hid => hmem ?_
          rwa [← hdistinct.frame_unique (hu.mem_frames hfr) place.frame_mem hid]
        rw [hsame]
        exact hb o u hu
    · exact absurd hc hnew
  | @scopes outer s f extra place top frame children new =>
    intro outer' t ht
    rw [top] at ht
    rcases place.of_update hdistinct rfl ht with
      ⟨o, u, hu, rfl, rfl⟩ | ⟨c, hc, hnew, inner, rfl, hin⟩
    · have hsame : (u.frame :: o).map (Scope.swapFrame s.frame.id (f s).frame) = u.frame :: o := by
        refine (List.map_congr_left fun fr hfr => ?_).trans (List.map_id _)
        rw [frame, Scope.swapFrame]
        split
        next hid => exact hdistinct.frame_unique place.frame_mem (hu.mem_frames hfr) hid.symm
        next => rfl
      rw [place.frame_update hdistinct rfl hu, ← List.map_cons, hsame]
      exact hb o u hu
    · have hc : c ∈ extra := by
        rcases List.mem_append.mp (children.mem_iff.mp hc) with hc | hc
        · exact absurd hc hnew
        · exact hc
      -- The new scope has none inside, so the place is its own.
      have leaf : c.children = [] → t = c ∧ inner = [] := by
        intro hleaf
        rcases hin.cases_root with ⟨rfl, rfl⟩ | ⟨d, hd, -⟩
        · exact ⟨rfl, rfl⟩
        · rw [hleaf] at hd
          exact absurd hd List.not_mem_nil
      have hold := hb outer s place
      cases new with
      | none => exact absurd hc List.not_mem_nil
      | bare _ hleaf symbols =>
        obtain rfl := List.mem_singleton.mp hc
        obtain ⟨rfl, rfl⟩ := leaf hleaf
        rw [List.nil_append, frame, Chain.names, List.flatMap_cons, symbols, List.nil_append]
        exact hold
      | named _ hleaf symbols xname hfree =>
        obtain rfl := List.mem_singleton.mp hc
        obtain ⟨rfl, rfl⟩ := leaf hleaf
        rw [List.nil_append, frame, Chain.names, List.flatMap_cons, symbols,
          List.singleton_append, List.filterMap_cons, xname]
        exact List.nodup_cons.mpr ⟨Chain.notMem_names_of_lookup hfree, hold⟩

theorem Built.namesApart (h : b.Built F) : b.NamesApart := by
  induction h with
  | empty options returnType =>
    intro outer s hs
    rcases hs.cases_root with ⟨rfl, rfl⟩ | ⟨c, hc, -⟩
    · exact List.nodup_nil
    · exact absurd hc List.not_mem_nil
  | edit built edit ih => exact edit.reshapes.namesApart built.numbered ih

/-- The frames along a chain stand in the tree. -/
theorem mem_frames_of_mem_chain {id : ScopeId} {fr : Frame} (h : fr ∈ b.chain id) :
    fr ∈ b.top.frames := by
  rw [chain] at h
  cases hc : b.top.chain? id with
  | none =>
    rw [hc] at h
    exact absurd h List.not_mem_nil
  | some c =>
    rw [hc] at h
    obtain ⟨outer, s, hs, -, rfl⟩ := Scope.exists_of_chain? hc
    exact hs.mem_frames h

theorem NamesApart.chain (h : b.NamesApart) (id : ScopeId) : (b.chain id).names.Nodup := by
  rw [Builder.chain]
  cases hc : b.top.chain? id with
  | none => exact List.nodup_nil
  | some c =>
    obtain ⟨outer, s, hs, -, rfl⟩ := Scope.exists_of_chain? hc
    exact h outer s hs

/-- Two symbols of one name on a chain are one. -/
theorem NamesApart.symbol_unique (h : b.NamesApart) {id : ScopeId} {x y : Symbol} {name : String}
    (hx : x ∈ (b.chain id).flatMap Frame.symbols) (hy : y ∈ (b.chain id).flatMap Frame.symbols)
    (hxn : x.name = some name) (hyn : y.name = some name) : x = y := by
  have hnodup := h.chain id
  rw [Chain.names, List.Nodup, List.pairwise_filterMap] at hnodup
  have hrel : ((b.chain id).flatMap Frame.symbols).Pairwise fun x y =>
      x.name = some name → y.name = some name → x = y :=
    hnodup.imp fun h hx hy => absurd rfl (h _ hx _ hy)
  have hflip := hrel.imp fun h hy hx => (h hx hy).symm
  exact hrel.forall_of_forall_of_flip (fun _ _ _ _ => rfl) hflip hx hy hxn hyn

/-- What is visible by its number stands on the chain. -/
theorem Numbered.mem_chain_of_isVisible (h : b.Numbered) {id : ScopeId} {x : Symbol}
    (hx : x ∈ b.owned) (hvisible : b.isVisible id x = true) :
    x ∈ (b.chain id).flatMap Frame.symbols := by
  obtain ⟨fr, hfr, howns⟩ := List.any_eq_true.mp hvisible
  obtain ⟨y, hy, hid⟩ := List.any_eq_true.mp howns
  have hyo : y ∈ b.owned := List.mem_flatMap.mpr ⟨fr, mem_frames_of_mem_chain hfr, hy⟩
  obtain rfl := List.inj_on_of_nodup_map h.symbols hyo hx (beq_iff_eq.mp hid)
  exact List.mem_flatMap.mpr ⟨fr, hfr, hy⟩

/-- Along the chain of any scope no name is owned twice. So a name stands for a symbol that has it
exactly if the symbol is visible. -/
theorem Reachable.names_apart {b : Builder} (h : b.Reachable) (id : ScopeId) :
    (b.chain id).names.Nodup ∧
      ∀ x ∈ b.owned, ∀ name, x.name = some name →
        (b.lookup id name = some x ↔ b.isVisible id x = true) := by
  have happart := h.built.namesApart
  refine ⟨happart.chain id, fun x hx name hn => ⟨Chain.isVisible_of_lookup, fun hvisible => ?_⟩⟩
  have hmem := h.built.numbered.mem_chain_of_isVisible hx hvisible
  obtain ⟨fr, hfr, hxfr⟩ := List.mem_flatMap.mp hmem
  obtain ⟨y, hlookup, hyn, hy⟩ := Chain.exists_lookup_of_mem hfr hxfr hn
  obtain rfl := happart.symbol_unique hy hmem hyn hn
  exact hlookup

/-- A parameter, and a variable of another name inside of a conditional. -/
theorem names_apart_in_conditional :
    ∃ b : Builder, b.Reachable ∧ (b.chain 1).names = ["y", "x"] ∧ (b.chain 1).names.Nodup ∧
      (b.lookup 1 "x" = some ⟨0, "x", .int⟩ ↔ b.isVisible 1 ⟨0, "x", .int⟩ = true) := by
  obtain ⟨b, hb⟩ : ∃ b, Builder.create ⟨"f", false⟩ [⟨"x", .int⟩] .int = .ok b := ⟨_, rfl⟩
  have hif := (Reachable.create hb).opening 0 (.ifTest ⟨[], .const (.bool true)⟩)
  have hy := hif.statement 1 (.declare "y" .int)
  cases hb
  refine ⟨_, hy, rfl, (hy.names_apart 1).1, (hy.names_apart 1).2 ⟨0, "x", .int⟩ ?_ "x" rfl⟩
  decide

end Builder

end StructuredFlow
