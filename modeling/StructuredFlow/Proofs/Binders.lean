import StructuredFlow.Proofs.AssembledClauses
import StructuredFlow.Proofs.NamesStable

/-
  The binders of a program: its parameters, the variables of its blocks, and what its handlers catch
  exceptions in. The builder gives a new number to each symbol and puts the symbol into one binder,
  so every number has exactly one binder (`Builder.Built.binders_perm`). A scope shows no other
  symbols than these, and those that it shows have names (`Builder.Built.owned_bound`). The variable
  that walks a collection has none; so without captures it stands nowhere but where the builder has
  put it, which is a fixed number of times (`Builder.Built.count_mentions`).
-/

namespace StructuredFlow

namespace Node

/-- The symbols that a node binds. -/
def binds : Node → List Symbol
  | block locals _ => locals
  | attempt _ handlers _ => handlers.flatMap fun h => h.binding.toList
  | _ => []

theorem binds_eq (n : Node) : n.binds = n.tells.flatMap Clause.binders := by
  cases n with
  | block locals body =>
    rw [tells, List.flatMap_map]
    exact (List.flatMap_singleton' locals).symm
  | attempt body handlers cleanup =>
    rw [tells, List.flatMap_map]
    rfl
  | switch value arms default => simp [binds, tells, Clause.binders, List.flatMap_map]
  | goto target value => cases value <;> rfl
  | label target value => cases value <;> rfl
  | _ => rfl

/-- The symbols that are bound in the tree. -/
def binders (n : Node) : List Symbol :=
  n.subnodes.flatMap binds

/-- The numbers of the variables that are read or assigned in the tree, each as often as it is. -/
def mentions (n : Node) : List SymbolId :=
  n.clauses.flatMap Clause.mentions

theorem binders_eq_clauses (n : Node) : n.binders = n.clauses.flatMap Clause.binders := by
  rw [binders, clauses, List.flatMap_assoc]
  exact List.flatMap_congr fun m _ => m.binds_eq

theorem binders_disposal (s : Symbol) : (disposal s).clauses.flatMap Clause.binders = [] := by
  unfold disposal
  dsimp only
  split <;> rfl

theorem mentions_disposal (s : Symbol) :
    (disposal s).mentions = if s.ty.isReference then [s.id, s.id] else [s.id] := by
  unfold disposal
  dsimp only
  split <;> rfl

end Node

/-- What has to be disposed of can be null. -/
theorem Ty.isReference_of_isDisposable {ty : Ty} (h : ty.isDisposable = true) :
    ty.isReference = true := by
  cases ty with
  | iterator => rfl
  | _ => cases h

/-- How often a variable that walks a collection is read or assigned: at its start, for each step,
for each element, and twice at its end if it is to be disposed of. -/
def Symbol.walks (s : Symbol) : Nat :=
  if s.ty.isDisposable then 5 else 3

namespace Stmt

variable {σ : Type}

/-- The clauses for the end of a walk, if there are any. -/
theorem flatMap_disposal {α : Type} (f : Clause → List α) (iterator : Symbol) :
    (if iterator.ty.isDisposable then (Node.disposal iterator).clauses else []).flatMap f =
      if iterator.ty.isDisposable then (Node.disposal iterator).clauses.flatMap f else [] := by
  split <;> rfl

theorem binders_iteration (iterator : Symbol) (collection : Expr) (l : Loop) (body : σ) :
    (iteration iterator collection l body).tells.flatMap Clause.binders = [iterator] := by
  rw [tells, List.flatMap_cons, List.flatMap_cons, List.flatMap_append, flatMap_disposal,
    Node.binders_disposal, ite_self]
  rfl

theorem binders_resource (symbol : Symbol) (producer : Expr) (body : σ) :
    (resource symbol producer body).tells.flatMap Clause.binders = [symbol] := by
  rw [tells, List.flatMap_cons, List.flatMap_cons, Node.binders_disposal]
  rfl

theorem mentions_iteration (iterator : Symbol) (collection : Expr) (l : Loop) (body : σ) :
    (iteration iterator collection l body).tells.flatMap Clause.mentions =
      iterator.id :: (collection.vars.map Symbol.id ++
        ((if iterator.ty.isDisposable then (Node.disposal iterator).mentions else []) ++
          l.condition.vars.map Symbol.id)) := by
  rw [tells, List.flatMap_cons, List.flatMap_cons, List.flatMap_append, flatMap_disposal,
    List.flatMap_singleton]
  show [] ++ (iterator.id :: (collection.vars ++ []).map Symbol.id ++ _) = _
  rw [List.append_nil]
  rfl

/-- An iteration by itself mentions the variable that it walks with as often as the walk needs, but
for the start of each round, and as often as the collection does. -/
theorem count_mentions_iteration {iterator : Symbol} {l : Loop} (collection : Expr) (body : σ)
    (hcondition : l.condition = .intrinsic .moveNext [.var iterator]) :
    ((iteration iterator collection l body).tells.flatMap Clause.mentions).count iterator.id + 1 =
      iterator.walks + (collection.vars.map Symbol.id).count iterator.id := by
  have hdisposal : (if iterator.ty.isDisposable then (Node.disposal iterator).mentions
      else []).count iterator.id = if iterator.ty.isDisposable then 2 else 0 := by
    split
    next h =>
      rw [Node.mentions_disposal, if_pos (Ty.isReference_of_isDisposable h)]
      simp
    next => rfl
  have hstep : (l.condition.vars.map Symbol.id).count iterator.id = 1 := by
    rw [hcondition]
    exact List.count_singleton_self
  rw [mentions_iteration, List.count_cons_self, List.count_append, List.count_append, hdisposal,
    hstep, Symbol.walks]
  split <;> omega

theorem mentions_resource (symbol : Symbol) (producer : Expr) (body : σ) :
    (resource symbol producer body).tells.flatMap Clause.mentions =
      symbol.id :: (producer.vars.map Symbol.id ++ (Node.disposal symbol).mentions) :=
  rfl

end Stmt

namespace Scope

/-- The symbols that the statements of a scope, and of all scopes in it, will bind. -/
def binders (s : Scope) : List Symbol :=
  s.clauses.flatMap Clause.binders

def mentions (s : Scope) : List SymbolId :=
  s.clauses.flatMap Clause.mentions

end Scope

/-- All symbols that a program binds. -/
def Artifact.binders (a : Artifact) : List Symbol :=
  a.params ++ a.body.binders

namespace Builder

variable {F : Fragment → Prop} {b b' : Builder} {c : Chain} {ps os : List Symbol} {n : Nat}
  {extra : List Clause}

/-! ## Numbers -/

/-- An edit binds the symbols whose numbers it takes. -/
theorem Tells.binders_map (h : b.Tells F c ps os n extra) :
    ((ps ++ extra.flatMap Clause.binders).map Symbol.id) = List.range' b.symbolCount n := by
  cases h with
  | iteration name =>
    rw [List.flatMap_append, Stmt.binders_iteration]
    rfl
  | resource name =>
    rw [Stmt.binders_resource]
    rfl
  | _ => rfl

/-- What comes into a frame has a name and is bound. -/
theorem Tells.owned_bound (h : b.Tells F c ps os n extra) {x : Symbol} (hx : x ∈ os) :
    x ∈ ps ++ extra.flatMap Clause.binders ∧ x.name ≠ none := by
  cases h with
  | iteration name =>
    obtain rfl := List.mem_singleton.mp hx
    refine ⟨List.mem_flatMap.mpr ⟨.binds _, ?_, List.mem_singleton_self _⟩, nofun⟩
    exact List.mem_append_right _ List.mem_cons_self
  | nothing | reads | assign | returnValue | handler => exact absurd hx List.not_mem_nil
  | _ =>
    obtain rfl := List.mem_singleton.mp hx
    exact ⟨List.mem_cons_self, nofun⟩

/-- The symbols of a builder after an edit are those before it and those of the edit. -/
theorem binders_perm_of_tells (hclauses : b'.top.clauses.Perm (b.top.clauses ++ extra)) :
    b'.top.binders.Perm (b.top.binders ++ extra.flatMap Clause.binders) ∧
      b'.top.mentions.Perm (b.top.mentions ++ extra.flatMap Clause.mentions) := by
  rw [Scope.binders, Scope.binders, Scope.mentions, Scope.mentions, ← List.flatMap_append,
    ← List.flatMap_append]
  exact ⟨hclauses.flatMap_right _, hclauses.flatMap_right _⟩

/-- Every number that was given to a symbol is bound exactly once. -/
theorem Built.binders_perm (h : b.Built F) :
    ((b.params ++ b.top.binders).map Symbol.id).Perm (List.range b.symbolCount) := by
  induction h with
  | empty options returnType => exact .rfl
  | @edit b b' built edit ih =>
    obtain ⟨c, params, owned, n, extra, -, htells, hparams, -, hcount, hclauses⟩ :=
      edit.tells built.numbered
    obtain ⟨hbinders, -⟩ := binders_perm_of_tells hclauses
    have hall : (b'.params ++ b'.top.binders).Perm
        ((b.params ++ b.top.binders) ++ (params ++ extra.flatMap Clause.binders)) := by
      rw [hparams]
      refine (hbinders.append_left _).trans ?_
      rw [List.append_assoc, List.append_assoc]
      exact (List.perm_append_comm_assoc _ _ _).append_left _
    refine (hall.map Symbol.id).trans ?_
    rw [List.map_append, htells.binders_map, hcount, List.range_eq_range', ← List.range'_append_1,
      Nat.zero_add, ← List.range_eq_range']
    exact ih.append_right _

/-- One number, one binder. -/
theorem Built.bound_unique (h : b.Built F) {x y : Symbol} (hx : x ∈ b.params ++ b.top.binders)
    (hy : y ∈ b.params ++ b.top.binders) (hid : x.id = y.id) : x = y :=
  List.inj_on_of_nodup_map (h.binders_perm.nodup_iff.mpr List.nodup_range) hx hy hid

/-- What a scope shows is bound, and has a name. -/
theorem Built.owned_bound (h : b.Built F) :
    ∀ x ∈ b.owned, x ∈ b.params ++ b.top.binders ∧ x.name ≠ none := by
  induction h with
  | empty options returnType => exact nofun
  | @edit b b' built edit ih =>
    obtain ⟨c, params, owned, n, extra, -, htells, hparams, howned, -, hclauses⟩ :=
      edit.tells built.numbered
    have hbinders : (b.params ++ b.top.binders) ++ (params ++ extra.flatMap Clause.binders) ⊆
        b'.params ++ b'.top.binders := by
      rw [hparams]
      intro x hx
      simp only [List.mem_append, (binders_perm_of_tells hclauses).1.mem_iff] at hx ⊢
      tauto
    intro x hx
    rcases List.mem_append.mp (howned.mem_iff.mp hx) with hx | hx
    · exact (ih x hx).imp_left fun hx => hbinders (List.mem_append_left _ hx)
    · exact (htells.owned_bound hx).imp_left fun hx => hbinders (List.mem_append_right _ hx)

/-! ## Mentions -/

/-- Without captures, an expression that was resolved along a chain reads symbols on the chain. -/
theorem Settles.owned (hcaptures : b.options.allowCaptures = false)
    (hframes : ∀ fr ∈ c, fr ∈ b.top.frames) {e : Expr} (h : b.Settles F c e) {s : Symbol}
    (hs : s ∈ e.vars) : ∃ x ∈ b.owned, x.id = s.id := by
  have hvisible : c.isVisible s = true := by
    rcases h.closed.vars s hs with hc | hv | ⟨name, hn⟩
    · exact absurd (hcaptures.symm.trans hc) Bool.false_ne_true
    · exact hv
    · exact Chain.isVisible_of_lookup hn
  obtain ⟨fr, hfr, howns⟩ := List.any_eq_true.mp hvisible
  obtain ⟨x, hx, hid⟩ := List.any_eq_true.mp howns
  exact ⟨x, List.mem_flatMap.mpr ⟨fr, hframes fr hfr, hx⟩, beq_iff_eq.mp hid⟩

/-- What is looked up along a chain is on the chain. -/
theorem mem_owned_of_lookup (hframes : ∀ fr ∈ c, fr ∈ b.top.frames) {name : String} {s : Symbol}
    (h : c.lookup name = some s) : s ∈ b.owned := by
  obtain ⟨fr, hfr, hs⟩ := List.exists_of_findSome?_eq_some h
  exact List.mem_flatMap.mpr ⟨fr, hframes fr hfr, List.mem_of_find?_eq_some hs⟩

/-- What an edit mentions is shown by some scope, or it is new. -/
theorem Tells.mentions_cases (hcaptures : b.options.allowCaptures = false)
    (hframes : ∀ fr ∈ c, fr ∈ b.top.frames) (h : b.Tells F c ps os n extra) {id : SymbolId}
    (hid : id ∈ extra.flatMap Clause.mentions) :
    (∃ x ∈ b.owned, x.id = id) ∨ b.symbolCount ≤ id ∧ id < b.symbolCount + n := by
  have settles {e : Expr} (he : b.Settles F c e) (hid : id ∈ e.vars.map Symbol.id) :
      ∃ x ∈ b.owned, x.id = id := by
    obtain ⟨s, hs, rfl⟩ := List.mem_map.mp hid
    exact he.owned hcaptures hframes hs
  have disposal (s : Symbol) (hid : id ∈ (Node.disposal s).mentions) : id = s.id := by
    rw [Node.mentions_disposal] at hid
    split at hid <;> simpa using hid
  cases h with
  | nothing | param | declare | handler | handlerWith => exact absurd hid List.not_mem_nil
  | reads settled =>
    rw [List.flatMap_singleton] at hid
    exact .inl (settles settled hid)
  | assign visible settled =>
    rw [List.flatMap_singleton] at hid
    rcases List.mem_cons.mp hid with rfl | hid
    · exact .inl ⟨_, mem_owned_of_lookup hframes visible, rfl⟩
    · exact .inl (settles settled hid)
  | returnValue settled =>
    rw [List.flatMap_singleton] at hid
    exact .inl (settles settled hid)
  | @iteration collection iteratorType element name ty settled =>
    rw [List.flatMap_append, Stmt.mentions_iteration] at hid
    have hnew : b.symbolCount ≤ b.symbolCount ∧ b.symbolCount < b.symbolCount + 2 := by omega
    have hitem : b.symbolCount ≤ b.symbolCount + 1 ∧ b.symbolCount + 1 < b.symbolCount + 2 := by
      omega
    rcases List.mem_append.mp hid with hid | hid
    · rcases List.mem_cons.mp hid with rfl | hid
      · exact .inr hnew
      rcases List.mem_append.mp hid with hid | hid
      · exact .inl (settles settled hid)
      rcases List.mem_append.mp hid with hid | hid
      · split at hid
        · exact .inr (disposal _ hid ▸ hnew)
        · exact absurd hid List.not_mem_nil
      · obtain rfl := List.mem_singleton.mp hid
        exact .inr hnew
    · simp only [List.flatMap_cons, List.flatMap_nil, Clause.mentions, vars_currentOf,
        List.map_cons, List.map_nil, List.nil_append, List.append_nil, List.mem_cons,
        List.not_mem_nil, or_false] at hid
      rcases hid with rfl | rfl
      · exact .inr hitem
      · exact .inr hnew
  | resource name settled =>
    rw [Stmt.mentions_resource] at hid
    have hnew : b.symbolCount ≤ b.symbolCount ∧ b.symbolCount < b.symbolCount + 1 := by omega
    rcases List.mem_cons.mp hid with rfl | hid
    · exact .inr hnew
    rcases List.mem_append.mp hid with hid | hid
    · exact .inl (settles settled hid)
    · exact .inr (disposal _ hid ▸ hnew)

/-- A new variable that walks a collection is mentioned as often as the walk needs. -/
theorem Tells.count_mentions (hcaptures : b.options.allowCaptures = false)
    (hb : b.Numbered) (hframes : ∀ fr ∈ c, fr ∈ b.top.frames) (h : b.Tells F c ps os n extra)
    {iterator : Symbol} (hbound : iterator ∈ extra.flatMap Clause.binders)
    (hname : iterator.name = none) :
    (extra.flatMap Clause.mentions).count iterator.id = iterator.walks := by
  cases h with
  | nothing | param | reads | assign | returnValue | handler => exact absurd hbound List.not_mem_nil
  | declare | handlerWith =>
    obtain rfl := List.mem_singleton.mp hbound
    cases hname
  | resource =>
    rw [Stmt.binders_resource] at hbound
    obtain rfl := List.mem_singleton.mp hbound
    cases hname
  | @iteration collection iteratorType element name ty settled iterable =>
    rw [List.flatMap_append, Stmt.binders_iteration] at hbound
    obtain rfl : iterator = b.newIterator iteratorType := by
      rcases List.mem_append.mp hbound with hbound | hbound
      · exact List.mem_singleton.mp hbound
      · obtain rfl := List.mem_singleton.mp hbound
        cases hname
    have hcollection :
        (collection.vars.map Symbol.id).count (b.newIterator iteratorType).id = 0 := by
      refine List.count_eq_zero.mpr fun hid => ?_
      obtain ⟨s, hs, hsid⟩ := List.mem_map.mp hid
      obtain ⟨x, hx, hxid⟩ := settled.owned hcaptures hframes hs
      exact absurd (hxid.trans hsid) (Nat.ne_of_lt (hb.symbol_lt x hx))
    have hitem : ([.binds (b.newSymbol 1 name ty), .assigns (b.newSymbol 1 name ty)
        (currentOf (b.newIterator iteratorType) element ty)].flatMap Clause.mentions).count
          (b.newIterator iteratorType).id = 1 := by
      simp [Clause.mentions, vars_currentOf, newSymbol, newIterator]
    rw [List.flatMap_append, List.count_append, hitem,
      Stmt.count_mentions_iteration _ () rfl, hcollection]
    rfl

/-- What has a binder has a number. -/
theorem Built.bound_lt (h : b.Built F) {x : Symbol} (hx : x ∈ b.params ++ b.top.binders) :
    x.id < b.symbolCount :=
  List.mem_range.mp (h.binders_perm.mem_iff.mp (List.mem_map_of_mem hx))

/-- Without captures only symbols that have been given out are mentioned, and a variable that walks
a collection is mentioned as often as its walk needs. -/
theorem Built.mentions_walks (h : b.Built F) (hcaptures : b.options.allowCaptures = false) :
    (∀ id ∈ b.top.mentions, id < b.symbolCount) ∧
      ∀ x ∈ b.top.binders, x.name = none → b.top.mentions.count x.id = x.walks := by
  induction h with
  | empty options returnType => exact ⟨nofun, nofun⟩
  | @edit b b' built edit ih =>
    have hcaptures : b.options.allowCaptures = false := by
      rw [← hcaptures, edit.edits.options_eq]
    obtain ⟨hlt, hwalks⟩ := ih hcaptures
    obtain ⟨c, params, owned, n, extra, hframes, htells, -, -, hcount, hclauses⟩ :=
      edit.tells built.numbered
    obtain ⟨hbinders, hmentions⟩ := binders_perm_of_tells hclauses
    have howned : ∀ x ∈ b.owned, x ∈ b.params ++ b.top.binders ∧ x.name ≠ none := built.owned_bound
    constructor
    · intro id hid
      rw [hcount]
      rcases List.mem_append.mp (hmentions.mem_iff.mp hid) with hid | hid
      · exact Nat.lt_add_right n (hlt id hid)
      · rcases htells.mentions_cases hcaptures hframes hid with ⟨x, hx, rfl⟩ | hnew
        · exact Nat.lt_add_right n (built.bound_lt (howned x hx).1)
        · exact hnew.2
    · intro x hx hname
      rw [hmentions.count_eq, List.count_append]
      rcases List.mem_append.mp (hbinders.mem_iff.mp hx) with hx | hx
      · have hbound : x ∈ b.params ++ b.top.binders := List.mem_append_right _ hx
        rw [hwalks x hx hname, List.count_eq_zero.mpr, Nat.add_zero]
        intro hid
        rcases htells.mentions_cases hcaptures hframes hid with ⟨y, hy, hyid⟩ | hnew
        · obtain rfl := built.bound_unique (howned y hy).1 hbound hyid
          exact (howned y hy).2 hname
        · exact absurd (built.bound_lt hbound) (Nat.not_lt.mpr hnew.1)
      · have hnew : x.id ∈ List.range' b.symbolCount n := by
          rw [← htells.binders_map]
          exact List.mem_map_of_mem (List.mem_append_right _ hx)
        have hge := (List.mem_range'_1.mp hnew).1
        rw [htells.count_mentions hcaptures built.numbered hframes hx hname,
          List.count_eq_zero.mpr fun hid => absurd (hlt _ hid) (Nat.not_lt.mpr hge), Nat.zero_add]

end Builder

end StructuredFlow
