import StructuredFlow.Proofs.NamesApart

/-
  What a scope says about names and jumps it says for good. An edit leaves the scopes along a chain
  as they are, and the one symbol that it may bring into a frame has a name that no chain through
  the frame has (`Scope.Within.notMem_names`); so along a chain nothing loses its meaning
  (`Builder.Edit.chain_kept`), and this composes over all edits between a builder and a later one.
  A fragment that was accepted asks nothing else of its scope, so it resolves to the same expression
  again.
-/

namespace StructuredFlow

/-! ## A chain later on -/

namespace Chain

/-- The innermost loop around: the scope that is its body, and its two labels. -/
def innermostLoop? (c : Chain) : Option (ScopeId × Label × Label) :=
  c.findSome? fun fr => fr.loopLabels?.map (fr.id, ·)

theorem map_innermostLoop? (c : Chain) : c.innermostLoop?.map Prod.snd = c.loopLabels? := by
  rw [innermostLoop?, loopLabels?, List.map_findSome?]
  congr 1
  funext fr
  cases h : fr.loopLabels? <;> simp [h]

/-- The same scopes with the same roles, in which no name and no symbol has lost its meaning. -/
structure Kept (c c' : Chain) : Prop where
  roles : c'.map (fun fr => (fr.id, fr.role)) = c.map fun fr => (fr.id, fr.role)
  lookup : ∀ name s, c.lookup name = some s → c'.lookup name = some s
  isVisible : ∀ s, c.isVisible s = true → c'.isVisible s = true

namespace Kept

variable {c c' c'' : Chain}

theorem refl (c : Chain) : c.Kept c :=
  ⟨rfl, fun _ _ h => h, fun _ h => h⟩

theorem trans (h : c.Kept c') (h' : c'.Kept c'') : c.Kept c'' where
  roles := h'.roles.trans h.roles
  lookup name s hs := h'.lookup name s (h.lookup name s hs)
  isVisible s hs := h'.isVisible s (h.isVisible s hs)

/-- Which loop is around is a matter of the roles. -/
theorem innermostLoop? (h : c.Kept c') : c'.innermostLoop? = c.innermostLoop? := by
  let loop : ScopeId × ScopeRole → Option (ScopeId × Label × Label) := fun p =>
    (Frame.loopLabels? ⟨p.1, p.2, [], []⟩).map (p.1, ·)
  have read (k : Chain) :
      k.innermostLoop? = (k.map fun fr => (fr.id, fr.role)).findSome? loop := by
    rw [List.findSome?_map]
    rfl
  rw [read, read, h.roles]

theorem loopLabels? (h : c.Kept c') : c'.loopLabels? = c.loopLabels? := by
  rw [← map_innermostLoop?, ← map_innermostLoop?, h.innermostLoop?]

/-- Whether a handler is around is a matter of the roles. -/
theorem inCatch (h : c.Kept c') : c'.inCatch = c.inCatch := by
  have read (k : Chain) :
      k.inCatch = (k.map fun fr => (fr.id, fr.role)).any (·.2 == .catchBody) := by
    rw [List.any_map]
    rfl
  rw [read, read, h.roles]

end Kept

end Chain

namespace Scope

variable {root s t : Scope} {outer o : Chain}

/-- A frame that gets a symbol with a new name keeps every chain. -/
theorem Within.kept_modifyFrame (hroot : root.Distinct) (hs : Within root outer s)
    (g : Frame → Frame) {x : Symbol} {name : String} (id : (g s.frame).id = s.frame.id)
    (role : (g s.frame).role = s.frame.role)
    (symbols : (g s.frame).symbols.Perm (x :: s.frame.symbols))
    (others : ∀ name' ≠ name, (g s.frame).named? name' = s.frame.named? name')
    (new : Chain.lookup (s.frame :: outer) name = none) (newInside : s.hasNameInside name = false)
    (ht : Within root o t) :
    Chain.Kept (t.frame :: o) ((t.frame :: o).map (swapFrame s.frame.id (g s.frame))) := by
  -- On the chain, the frame with the number of the scope is the frame of the scope.
  have swapped : ∀ fr ∈ t.frame :: o, swapFrame s.frame.id (g s.frame) fr = fr ∨
      fr = s.frame ∧ swapFrame s.frame.id (g s.frame) fr = g s.frame := by
    intro fr hfr
    by_cases hid : fr.id = s.frame.id
    · exact .inr ⟨hroot.frame_unique (ht.mem_frames hfr) hs.frame_mem hid, if_pos hid⟩
    · exact .inl (swapFrame_of_ne hid)
  constructor
  · rw [List.map_map]
    refine List.map_congr_left fun fr hfr => ?_
    rw [Function.comp_apply]
    rcases swapped fr hfr with h | ⟨rfl, h⟩
    · rw [h]
    · rw [h, id, role]
  · intro name' y hy
    -- The name of the symbol has no meaning on a chain with the frame; any other name keeps its.
    by_cases hmem : s.frame ∈ t.frame :: o
    · have hne : name' ≠ name := by
        rintro rfl
        obtain ⟨fr, hfr, hyfr⟩ := List.exists_of_findSome?_eq_some hy
        rw [Frame.named?] at hyfr
        have hyn : y.name = some name' :=
          Symbol.isNamed_iff.mp (List.find?_some (p := fun z : Symbol => z.isNamed name') hyfr)
        exact hs.notMem_names hroot ht hmem new newInside
          (Chain.mem_names.mpr ⟨fr, hfr, y, List.mem_of_find?_eq_some hyfr, hyn⟩)
      have read (k : Chain) : k.lookup name' = (k.map (·.named? name')).findSome? fun y => y := by
        rw [List.findSome?_map]
        rfl
      rw [← hy, read, read, List.map_map]
      refine congrArg _ (List.map_congr_left fun fr hfr => ?_)
      rw [Function.comp_apply]
      rcases swapped fr hfr with h | ⟨rfl, h⟩
      · rw [h]
      · rw [h, others name' hne]
    · have hsame : (t.frame :: o).map (swapFrame s.frame.id (g s.frame)) = t.frame :: o := by
        refine (List.map_congr_left fun fr hfr => ?_).trans (List.map_id _)
        rcases swapped fr hfr with h | ⟨rfl, -⟩
        · exact h
        · exact absurd hfr hmem
      rwa [hsame]
  · intro y hy
    obtain ⟨fr, hfr, howns⟩ := List.any_eq_true.mp hy
    refine List.any_eq_true.mpr ⟨_, List.mem_map_of_mem hfr, ?_⟩
    rcases swapped fr hfr with h | ⟨rfl, h⟩
    · rwa [h]
    · obtain ⟨z, hz, hid⟩ := List.any_eq_true.mp howns
      rw [h]
      exact List.any_eq_true.mpr ⟨z, symbols.mem_iff.mpr (List.mem_cons_of_mem x hz), hid⟩

/-- The chain of a scope after a change: the old one, with the changed frame in it. -/
theorem Within.chain?_update (hroot : root.Distinct) (hs : Within root outer s) {f : Scope → Scope}
    (hroot' : (root.update s.frame.id f).Distinct) (hid : (f s).frame.id = s.frame.id)
    (hkeep : ∀ c ∈ s.children, c ∈ (f s).children) (ht : Within root o t) :
    (root.update s.frame.id f).chain? t.frame.id =
      some ((t.frame :: o).map (swapFrame s.frame.id (f s).frame)) := by
  have hframe := hs.frame_update (f := f) hroot rfl ht
  have htid : (t.update s.frame.id f).frame.id = t.frame.id := by
    rw [hframe, swapFrame]
    split
    next h => rw [hid, h]
    next => rfl
  rw [List.map_cons, ← hframe, ← htid]
  exact (hs.update hroot rfl hkeep ht).chain?_eq hroot'

end Scope

namespace Builder

variable {F : Fragment → Prop} {b b' : Builder} {id : ScopeId} {c : Chain}

/-- A scope whose frame is left alone leaves every chain as it is. -/
theorem Numbered.chain?_update {outer : Chain} {s : Scope} {f : Scope → Scope} (hb : b.Numbered)
    (hb' : (b.top.update s.frame.id f).Distinct) (place : b.top.Within outer s)
    (frame : (f s).frame = s.frame) (hkeep : ∀ d ∈ s.children, d ∈ (f s).children)
    (hc : b.top.chain? id = some c) : (b.top.update s.frame.id f).chain? id = some c := by
  obtain ⟨o, t, ht, rfl, rfl⟩ := Scope.exists_of_chain? hc
  rw [place.chain?_update hb.distinct hb' (congrArg Frame.id frame) hkeep ht, frame]
  refine congrArg some ((List.map_congr_left fun fr hfr => ?_).trans (List.map_id _))
  rw [Scope.swapFrame]
  split
  next hid => exact hb.distinct.frame_unique place.frame_mem (ht.mem_frames hfr) hid.symm
  next => rfl

/-- An edit keeps every chain. -/
theorem Edit.chain_kept (h : b.Edit F b') (hb : b.Numbered) (hc : b.top.chain? id = some c) :
    ∃ c', b'.top.chain? id = some c' ∧ c.Kept c' := by
  have hdistinct := (h.reshapes.numbered hb).distinct
  obtain ⟨o, t, ht, rfl, rfl⟩ := Scope.exists_of_chain? hc
  cases h with
  | @param name ty new newInside =>
    refine ⟨_, Scope.Within.chain?_update hb.distinct .here hdistinct rfl (fun _ h => h) ht, ?_⟩
    let x := b.newSymbol 0 name ty
    exact Scope.Within.kept_modifyFrame hb.distinct .here (·.addImplicit x) rfl rfl
      (symbols_addImplicit _ _) (fun _ => Frame.named?_addImplicit_of_ne rfl) new newInside ht
  | @declare outer s name ty place new newInside =>
    refine ⟨_, place.chain?_update hb.distinct hdistinct rfl (fun _ h => h) ht, ?_⟩
    let x := b.newSymbol 0 name ty
    exact place.kept_modifyFrame hb.distinct (·.addLocal x) rfl rfl (symbols_addLocal _ _)
      (fun _ => Frame.named?_addLocal_of_ne rfl) new newInside ht
  | @add outer s stmts b₁ place adds =>
    rw [changing, adds.top_eq] at hdistinct ⊢
    exact ⟨_, hb.chain?_update hdistinct place rfl (children_addStmts stmts s) hc, .refl _⟩
  | @grow outer s index old new b₁ place standing grows =>
    rw [changing, grows.top_eq] at hdistinct ⊢
    exact ⟨_, hb.chain?_update hdistinct place rfl (grows.keeps_children standing) hc, .refl _⟩

theorem Edits.chain_kept (h : b.Edits F b') (hb : b.Built F) (hc : b.top.chain? id = some c) :
    ∃ c', b'.top.chain? id = some c' ∧ c.Kept c' := by
  induction h with
  | refl => exact ⟨c, hc, .refl c⟩
  | edit edits edit ih =>
    obtain ⟨c', hc', kept⟩ := ih
    obtain ⟨c'', hc'', kept'⟩ := edit.chain_kept (hb.edits edits).numbered hc'
    exact ⟨c'', hc'', kept.trans kept'⟩

theorem Edits.options_eq (h : b.Edits F b') : b'.options = b.options := by
  induction h with
  | refl => rfl
  | edit _ edit ih =>
    rw [← ih]
    cases edit with
    | param => rfl
    | declare => rfl
    | add _ adds => cases adds <;> rfl
    | grow _ _ grows => cases grows <;> rfl

/-! ## Scopes that exist -/

/-- A number that is given out is that of a scope in the tree. -/
def Housed (b : Builder) : Prop :=
  ∀ id < b.scopeCount, id ∈ b.top.ids

theorem Reshapes.housed (h : b.Reshapes b') (hb : b.Numbered) (hall : b.Housed) : b'.Housed := by
  intro id hid
  cases h with
  | @symbol outer s x name g place top sameId symbols named new newInside xid scopeCount =>
    have hids : b'.top.ids = b.top.ids := by
      rw [Scope.ids, Scope.ids, top, Scope.frames_modifyFrame, List.map_map]
      refine List.map_congr_left fun fr _ => ?_
      rw [Function.comp_apply]
      split
      · exact sameId fr
      · rfl
    rw [hids]
    exact hall id (scopeCount ▸ hid)
  | @scopes outer s f extra place top frame children new =>
    have hframes := (hb.frames_perm_of_scopes place top frame children).map Frame.id
    refine hframes.mem_iff.mpr ?_
    rw [List.map_append, List.mem_append]
    -- The one new scope, if there is one, has the one new number.
    have one (n : Scope) (hn : n.frame.id = b.scopeCount) (leaf : n.children = [])
        (count : b'.scopeCount = b.scopeCount + 1) :
        id ∈ b.top.ids ∨ id ∈ ([n].flatMap Scope.frames).map Frame.id := by
      rw [count] at hid
      rcases Nat.lt_succ_iff_lt_or_eq.mp hid with hid | rfl
      · exact .inl (hall id hid)
      · simp [frames_leaf leaf, hn]
    cases new with
    | none count => exact .inl (hall id (count ▸ hid))
    | bare hn leaf _ count => exact one _ hn leaf count
    | named hn leaf _ _ _ count => exact one _ hn leaf count

theorem Built.housed (h : b.Built F) : b.Housed := by
  induction h with
  | empty options returnType =>
    intro id hid
    obtain rfl := Nat.lt_one_iff.mp hid
    exact List.mem_cons_self
  | edit built edit ih => exact edit.reshapes.housed built.numbered ih

/-- The chain of a scope that exists, in a builder and in any later one. -/
theorem Reachable.chain_kept (h : b.Reachable) (later : b.Later b')
    (found : b.hasScope id = true) :
    (∃ c, b.top.chain? id = some c) ∧ (∃ c', b'.top.chain? id = some c') ∧
      (b.chain id).Kept (b'.chain id) := by
  obtain ⟨c, hc⟩ := Scope.chain?_isSome (h.built.housed id (of_decide_eq_true found))
  obtain ⟨c', hc', kept⟩ := (later.edits h.built).chain_kept h.built hc
  refine ⟨⟨c, hc⟩, ⟨c', hc'⟩, ?_⟩
  rw [chain, chain, hc, hc']
  exact kept

/-- What a scope of a builder says it says in every later builder: each name stands for what it
stood for, what was visible is visible, the loop around is the same with the same labels, an
exception can be raised again where it could be before and nowhere else, and a fragment that was
resolved gives the same expression again. -/
theorem Reachable.names_stable (h : b.Reachable) (later : b.Later b')
    (found : b.hasScope id = true) :
    (∀ name x, b.lookup id name = some x → b'.lookup id name = some x) ∧
      (∀ x, b.isVisible id x = true → b'.isVisible id x = true) ∧
      (b'.chain id).innermostLoop? = (b.chain id).innermostLoop? ∧
      (b'.chain id).loopLabels? = (b.chain id).loopLabels? ∧
      (b'.chain id).inCatch = (b.chain id).inCatch ∧
      ∀ f e, Build.resolve id f b = .ok e b → Build.resolve id f b' = .ok e b' := by
  obtain ⟨-, hc', kept⟩ := h.chain_kept later found
  have context : (b.context id).Kept (b'.context id) :=
    ⟨kept.lookup, kept.isVisible,
      congrArg Options.allowCaptures (later.edits h.built).options_eq⟩
  refine ⟨kept.lookup, kept.isVisible, kept.innermostLoop?, kept.loopLabels?, kept.inCatch, ?_⟩
  intro f e hf
  obtain ⟨-, hf, -⟩ := Build.resolve_ok.mp hf
  exact Build.resolve_ok.mpr ⟨hc', context.resolveIn hf, rfl⟩

/-- Inside of a loop, the parameter of a program stands for itself also after the scope around the
loop has got a variable. -/
theorem names_stable_in_loop :
    ∃ b b' : Builder, b.Reachable ∧ b.Later b' ∧ b.hasScope 1 = true ∧
      b.lookup 1 "x" = some ⟨0, "x", .int⟩ ∧ b'.lookup 1 "y" = some ⟨1, "y", .int⟩ ∧
      b'.lookup 1 "x" = some ⟨0, "x", .int⟩ ∧
      (b'.chain 1).innermostLoop? = some (1, Label.internal 2, Label.internal 1) ∧
      Build.resolve 1 ⟨[⟨"x", .int⟩], .param ⟨"x", .int⟩⟩ b' =
        .ok (.var ⟨0, "x", .int⟩) b' := by
  obtain ⟨b, hb⟩ : ∃ b, Builder.create ⟨"f", false⟩ [⟨"x", .int⟩] .int = .ok b := ⟨_, rfl⟩
  have hwhile := (Reachable.create hb).opening 0 (.whileTest ⟨[], .const (.bool true)⟩)
  refine ⟨_, _, hwhile, .statement .refl 0 (.declare "y" .int), ?_⟩
  have stable := @Reachable.names_stable _ _ 1 hwhile (.statement .refl 0 (.declare "y" .int))
  cases hb
  refine ⟨rfl, rfl, rfl, ?_⟩
  obtain ⟨lookup, -, loop, -, -, resolve⟩ := stable rfl
  exact ⟨lookup "x" _ rfl, loop, resolve _ _ rfl⟩

end Builder

end StructuredFlow
