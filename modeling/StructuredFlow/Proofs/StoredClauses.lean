import StructuredFlow.Proofs.Binders

/-
  Where values are stored. A property that everything has which edits tell, all clauses of a builder
  have (`Builder.Built.clauses_hold`), and so do the nodes of its program
  (`Builder.Built.nodes_hold`). In this way the checks of the builder reach the program: what is
  assigned suits its variable, a handler binds exceptions in a variable of its kind, and a return
  carries what suits the return type (`Clause.Stored`). The fragments have no part in that; whether
  their own operators fit their operands is another matter.
-/

namespace StructuredFlow

open Build (Suits)

/-- The symbols of a builder: its parameters, and what its statements bind. -/
def Builder.symbols (b : Builder) : List Symbol :=
  b.params ++ b.top.binders

variable {symbols : List Symbol}

/-- What the clause stores suits the place for it, with variables among the given ones, in a program
with the given return label. -/
def Clause.Stored (symbols : List Symbol) (exit : Label) : Clause → Prop
  | reads _ => True
  | assigns target value => target ∈ symbols ∧ Suits target.ty value
  | binds s => s ∈ symbols
  | catches kind binding => ∀ s ∈ binding, s ∈ symbols ∧ s.ty = kind
  | carries target value => target = exit ∧ Suits exit.ty value
  | defaults _ _ => True

theorem Expr.type_getIterator (e : Expr) :
    (intrinsic .getIterator [e]).type = e.type.iteratorType?.getD .void := by
  simp [type]

theorem Expr.type_current (e : Expr) :
    (intrinsic .current [e]).type = e.type.elementType?.getD .void := by
  simp [type]

/-- What gives values of a type suits places of that type. -/
theorem Build.suits_of_type {ty : Ty} {e : Expr} (h : e.type = ty) : Suits ty e :=
  .inr (by rw [h]; exact Ty.accepts_self ty)

/-- The end of a resource or a walk stores nothing. -/
theorem Node.disposal_reads (s : Symbol) : ∀ cl ∈ (disposal s).clauses, ∃ e, cl = .reads e := by
  unfold disposal
  dsimp only
  split
  · refine List.forall_mem_cons.mpr ⟨⟨_, rfl⟩, ?_⟩
    exact List.forall_mem_singleton.mpr ⟨_, rfl⟩
  · exact List.forall_mem_singleton.mpr ⟨_, rfl⟩

namespace Builder

variable {F : Fragment → Prop} {b b' : Builder} {c : Chain} {ps os : List Symbol} {n : Nat}
  {extra : List Clause}

/-- The element that a walk stands at, in the type of the variable for it. -/
theorem type_currentOf {s : Symbol} {element : Ty} (h : s.ty.elementType? = some element)
    (ty : Ty) : (currentOf s element ty).type = ty := by
  have htype : (Expr.intrinsic .current [.var s]).type = element := by
    rw [Expr.type_current, Expr.type, h, Option.getD_some]
  rw [currentOf]
  split
  next heq => exact htype.trans heq.symm
  next => rfl

/-- What an edit stores suits the places for it. -/
theorem Tells.stored (h : b.Tells F c ps os n extra)
    (hc : ∀ name s, c.lookup name = some s → s ∈ symbols)
    (hnew : extra.flatMap Clause.binders ⊆ symbols) :
    ∀ cl ∈ extra, cl.Stored symbols b.returnLabel := by
  have silent (s : Symbol) : ∀ cl ∈ (Node.disposal s).clauses, cl.Stored symbols b.returnLabel :=
    fun cl hcl => by
      obtain ⟨e, rfl⟩ := Node.disposal_reads s cl hcl
      trivial
  cases h with
  | nothing | param => exact nofun
  | declare => exact List.forall_mem_singleton.mpr (hnew (List.mem_singleton_self _))
  | reads => exact List.forall_mem_singleton.mpr trivial
  | assign visible _ suits => exact List.forall_mem_singleton.mpr ⟨hc _ _ visible, suits⟩
  | returnValue _ suits =>
    refine List.forall_mem_singleton.mpr ⟨rfl, ?_⟩
    exact suits.elim .inl Build.suits_of_type
  | @iteration collection iteratorType element name ty _ iterable yields _ =>
    -- The iterator and the item are new, and their types are those of what the walk stores in them.
    rw [List.flatMap_append, Stmt.binders_iteration] at hnew
    have hiterator : b.newIterator iteratorType ∈ symbols := hnew List.mem_cons_self
    have hitem : b.newSymbol 1 name ty ∈ symbols :=
      hnew (List.mem_append_right _ (List.mem_singleton_self _))
    have hproducer : Suits iteratorType (.intrinsic .getIterator [collection]) :=
      Build.suits_of_type (by rw [Expr.type_getIterator, iterable, Option.getD_some])
    have hcurrent := Build.suits_of_type
      (type_currentOf (s := b.newIterator iteratorType) yields ty)
    refine List.forall_mem_append.mpr ⟨?_, ?_⟩
    · refine List.forall_mem_cons.mpr ⟨hiterator, ?_⟩
      refine List.forall_mem_cons.mpr ⟨⟨hiterator, hproducer⟩, ?_⟩
      refine List.forall_mem_append.mpr ⟨fun cl hcl => ?_, List.forall_mem_singleton.mpr trivial⟩
      split at hcl
      · exact silent _ cl hcl
      · exact absurd hcl List.not_mem_nil
    · refine List.forall_mem_cons.mpr ⟨hitem, ?_⟩
      exact List.forall_mem_singleton.mpr ⟨hitem, hcurrent⟩
  | @resource ty producer name _ suits =>
    rw [Stmt.binders_resource] at hnew
    have hsymbol : b.newSymbol 0 name ty ∈ symbols := hnew List.mem_cons_self
    refine List.forall_mem_cons.mpr ⟨hsymbol, ?_⟩
    exact List.forall_mem_cons.mpr ⟨⟨hsymbol, suits⟩, silent _⟩
  | handler => exact List.forall_mem_singleton.mpr nofun
  | handlerWith =>
    refine List.forall_mem_singleton.mpr fun s hs => ?_
    obtain rfl := Option.some.inj hs
    exact ⟨hnew (List.mem_singleton_self _), rfl⟩

theorem Edit.returnLabel_eq (h : b.Edit F b') : b'.returnLabel = b.returnLabel := by
  cases h with
  | param => rfl
  | declare => rfl
  | add _ adds => exact adds.alike.returnLabel
  | grow _ _ grows => exact grows.alike.returnLabel

/-- The property is one of everything that edits can tell which find and bind given symbols, in
builders with the given return label. -/
def AllTold (F : Fragment → Prop) (symbols : List Symbol) (exit : Label) (P : Clause → Prop) :
    Prop :=
  ∀ (b : Builder) (c : Chain) ps os n extra, b.returnLabel = exit → b.Tells F c ps os n extra →
    (∀ name s, c.lookup name = some s → s ∈ symbols) → extra.flatMap Clause.binders ⊆ symbols →
      ∀ cl ∈ extra, P cl

theorem allTold_stored (F : Fragment → Prop) (symbols : List Symbol) (exit : Label) :
    AllTold F symbols exit (Clause.Stored symbols exit) := by
  rintro b c ps os n extra rfl h
  exact h.stored

variable {P : Clause → Prop}

/-- What holds of all that edits tell holds of the clauses of a builder. -/
theorem Built.clauses_hold (h : b.Built F) (hsymbols : b.symbols ⊆ symbols)
    (htold : AllTold F symbols b.returnLabel P) : ∀ cl ∈ b.top.clauses, P cl := by
  induction h with
  | empty options returnType => exact nofun
  | @edit b b' built edit ih =>
    obtain ⟨c, params, owned, n, extra, hframes, hedit, hparams, -, -, hclauses⟩ :=
      edit.tells built.numbered
    have hbinders := (binders_perm_of_tells hclauses).1
    have hold : b.symbols ⊆ symbols := by
      refine List.append_subset.mpr ⟨fun x hx => hsymbols ?_, fun x hx => hsymbols ?_⟩
      · rw [Builder.symbols, hparams]
        exact List.mem_append_left _ (List.mem_append_left _ hx)
      · exact List.mem_append_right _ (hbinders.mem_iff.mpr (List.mem_append_left _ hx))
    have hnew : extra.flatMap Clause.binders ⊆ symbols := fun x hx =>
      hsymbols (List.mem_append_right _ (hbinders.mem_iff.mpr (List.mem_append_right _ hx)))
    have hc : ∀ name s, c.lookup name = some s → s ∈ symbols := fun name s hs =>
      hold (built.owned_bound s (mem_owned_of_lookup hframes hs)).1
    -- What was told before the edit is told by earlier edits; the rest the edit has told.
    rw [edit.returnLabel_eq] at htold
    intro cl hcl
    rcases List.mem_append.mp (hclauses.mem_iff.mp hcl) with hcl | hcl
    · exact ih hold htold cl hcl
    · exact htold _ _ _ _ _ _ rfl hedit hc hnew cl hcl

variable {a : Artifact}

/-- It holds of what the nodes of the program tell, if it does of the value at the end. -/
theorem Built.nodes_hold (h : b.Built F) (ha : b.assemble = .ok a)
    (htold : AllTold F b.symbols a.returnLabel P)
    (hdefaults : ∀ l v, P (.defaults l v)) {n : Node} (hn : n ∈ a.body.subnodes) :
    ∀ cl ∈ n.tells, P cl := by
  obtain ⟨-, hreturn, -⟩ := assemble_ok ha
  obtain ⟨kept, hkeeps, hclauses⟩ := clauses_of_assemble ha
  intro cl hcl
  have hmem : cl ∈ a.body.clauses := List.mem_flatMap.mpr ⟨n, hn, hcl⟩
  rw [hclauses] at hmem
  rcases List.mem_append.mp hmem with hmem | hmem
  · exact h.clauses_hold (fun _ hx => hx) (hreturn ▸ htold) cl (hkeeps.subset hmem)
  · obtain ⟨value, -, rfl⟩ := List.mem_map.mp hmem
    exact hdefaults _ _

/-- What a program stores suits the places for it. -/
theorem Built.nodes_stored (h : b.Built F) (ha : b.assemble = .ok a) {n : Node}
    (hn : n ∈ a.body.subnodes) : ∀ cl ∈ n.tells, cl.Stored b.symbols a.returnLabel :=
  h.nodes_hold ha (allTold_stored F _ _) (fun _ _ => trivial) hn

end Builder

end StructuredFlow
