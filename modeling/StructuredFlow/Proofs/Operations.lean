import StructuredFlow.Proofs.BuilderShape

/-
  Every operation is a row of edits, and an operation that is refused leaves the builder as it was
  (`Keeps`). The checks of an operation come first and only read the builder (`Reads`), and what
  comes behind them is never refused; so there is nothing to undo. From this, whatever a session
  does to its builder is a row of edits (`Session.Reachable.built`).
-/

namespace StructuredFlow

/-- The fragments that a statement is made of. -/
def Statement.fragments : Statement → List Fragment
  | .assign _ _ value | .act value | .returnValue _ value | .throw value => [value]
  | .declare _ _ | .jump _ | .returnVoid | .goto _ | .label _ | .rethrow => []

namespace Frame

variable {fr : Frame} {x : Symbol} {name name' : String}

/-- A symbol of another name leaves what a name stands for, wherever it comes in. -/
theorem named?_addLocal_of_ne (hx : x.name = some name) (h : name' ≠ name) :
    (fr.addLocal x).named? name' = fr.named? name' := by
  have hno : x.isNamed name' = false := by simp [Symbol.isNamed, hx, h.symm]
  simp [named?, symbols, addLocal, List.find?_append, hno]

theorem named?_addImplicit_of_ne (hx : x.name = some name) (h : name' ≠ name) :
    (fr.addImplicit x).named? name' = fr.named? name' := by
  have hno : x.isNamed name' = false := by simp [Symbol.isNamed, hx, h.symm]
  simp [named?, symbols, addImplicit, List.find?_append, hno]

end Frame

namespace Chain

theorem isVisible_of_named? {c : Chain} {fr : Frame} {name : String} {s : Symbol} (hfr : fr ∈ c)
    (h : fr.named? name = some s) : c.isVisible s = true := by
  have hs : s ∈ fr.symbols := List.mem_of_find?_eq_some h
  exact List.any_eq_true.mpr ⟨fr, hfr, List.any_eq_true.mpr ⟨s, hs, by simp⟩⟩

/-- What a name stands for is visible. -/
theorem isVisible_of_lookup {c : Chain} {name : String} {s : Symbol} (h : c.lookup name = some s) :
    c.isVisible s = true := by
  obtain ⟨fr, hfr, hs⟩ := List.exists_of_findSome?_eq_some h
  exact isVisible_of_named? hfr hs

/-- With another variable in the first frame, what was visible is visible. -/
theorem isVisible_addLocal {fr : Frame} {outer : Chain} {s : Symbol} (x : Symbol)
    (h : isVisible (fr :: outer) s = true) : isVisible (fr.addLocal x :: outer) s = true := by
  rw [isVisible, List.any_cons, Bool.or_eq_true] at h ⊢
  refine h.imp_left fun h => ?_
  obtain ⟨y, hy, hid⟩ := List.any_eq_true.mp h
  have hy : y ∈ (fr.addLocal x).symbols :=
    (Builder.symbols_addLocal fr x).mem_iff.mpr (List.mem_cons_of_mem x hy)
  exact List.any_eq_true.mpr ⟨y, hy, hid⟩

/-- A new name stands for the variable that brings it. -/
theorem lookup_addLocal {fr : Frame} {outer : Chain} {name : String} {x : Symbol}
    (new : lookup (fr :: outer) name = none) (hx : x.name = some name) :
    lookup (fr.addLocal x :: outer) name = some x := by
  have hfr : fr.named? name = none := List.findSome?_eq_none_iff.mp new fr List.mem_cons_self
  have hlocals : fr.locals.find? (·.isNamed name) = none := by
    rw [Frame.named?, Frame.symbols, List.find?_append, Option.or_eq_none_iff] at hfr
    exact hfr.1
  have hnamed : (fr.addLocal x).named? name = some x := by
    rw [Frame.named?, Frame.symbols, Frame.addLocal, List.append_assoc, List.find?_append, hlocals,
      Option.none_or, List.singleton_append]
    exact List.find?_cons_of_pos (p := fun y : Symbol => y.isNamed name)
      (Symbol.isNamed_iff.mpr hx)
  rw [lookup, List.findSome?_cons, hnamed]

/-- Another variable with a new name takes no meaning away. -/
theorem kept_addLocal {fr : Frame} {outer : Chain} {name : String} {x : Symbol}
    (new : lookup (fr :: outer) name = none) (hx : x.name = some name) (allowed : Bool) :
    (context (fr :: outer) allowed).Kept (context (fr.addLocal x :: outer) allowed) where
  resolve name' s hs := by
    have hne : name' ≠ name := by
      rintro rfl
      cases new.symm.trans hs
    show lookup (fr.addLocal x :: outer) name' = some s
    rw [lookup, List.findSome?_cons, Frame.named?_addLocal_of_ne hx hne]
    exact hs
  isVisible _ := isVisible_addLocal x
  capturesAllowed := rfl

end Chain

namespace Scope

/-- Two changes of one scope in a row are one, if the first puts a node at its end. -/
theorem update_push_node (id : ScopeId) (n : Node) (g : Scope → Scope) (s : Scope) :
    (s.update id (·.push (.node n))).update id g = s.update id fun s => g (s.push (.node n)) := by
  induction s using induct with
  | step s ih =>
    have hstmts : (s.stmts.map (Stmt.map (update id (·.push (.node n))))).map
        (Stmt.map (update id g)) =
          s.stmts.map (Stmt.map (update id fun s => g (s.push (.node n)))) := by
      rw [List.map_map]
      refine List.map_congr_left fun stmt hstmt => ?_
      rw [Function.comp_apply, Stmt.map_map]
      exact Stmt.map_congr fun c hc => ih c (mem_children.mpr ⟨stmt, hstmt, hc⟩)
    rw [update_eq id (·.push (.node n)), update_eq id fun s => g (s.push (.node n))]
    split
    next hid =>
      rw [update_eq, ← hstmts]
      refine (if_pos hid).trans ?_
      simp only [push, List.map_append]
      rfl
    next hid =>
      rw [update_eq, ← hstmts]
      exact if_neg hid

end Scope

namespace Build

open Outcome

variable {α β : Type} {F : Fragment → Prop} {b b' : Builder} {e : BuildError} {r : α}

/-! ## Operations that only read -/

/-- The operation leaves the builder as it is, however it ends. -/
structure Reads (x : Build α) : Prop where
  done : ∀ {b r b'}, x b = .ok r b' → b' = b
  refused : ∀ {b e b'}, x b = .error e b' → b' = b

namespace Reads

variable {x : Build α} {f : α → Build β} {s : β}

theorem andThen_ok (hx : Reads x) (h : (x >>= f) b = .ok s b') :
    ∃ a, x b = .ok a b ∧ f a b = .ok s b' := by
  obtain ⟨a, b₁, ha, hf⟩ := Outcome.andThen_ok.mp h
  obtain rfl := hx.done ha
  exact ⟨a, ha, hf⟩

/-- A refusal behind an operation that only reads. -/
theorem andThen_error (hx : Reads x) (h : (x >>= f) b = .error e b') :
    b' = b ∨ ∃ a, x b = .ok a b ∧ f a b = .error e b' := by
  rcases Outcome.andThen_error.mp h with h | ⟨a, b₁, ha, hf⟩
  · exact .inl (hx.refused h)
  · obtain rfl := hx.done ha
    exact .inr ⟨a, ha, hf⟩

theorem andThen (hx : Reads x) (hf : ∀ a, Reads (f a)) : Reads (x >>= f) where
  done h := by
    obtain ⟨a, -, ha⟩ := hx.andThen_ok h
    exact (hf a).done ha
  refused h := by
    rcases hx.andThen_error h with h | ⟨a, -, ha⟩
    · exact h
    · exact (hf a).refused ha

theorem pure (a : α) : Reads (pure a) where
  done h := (pure_ok.mp h).2
  refused h := (pure_error.mp h).elim

theorem throw (cause : BuildError) : Reads (throw cause : Build α) where
  done h := (throw_ok.mp h).elim
  refused h := (throw_error.mp h).2

theorem get : Reads (get : Build Builder) where
  done h := (get_ok.mp h).2
  refused h := (get_error.mp h).elim

theorem ofExcept (x : Except BuildError α) : Reads (MonadExcept.ofExcept x : Build α) where
  done h := (ofExcept_ok.mp h).2
  refused h := (ofExcept_error.mp h).2

theorem ite {p : Prop} [Decidable p] {y : Build α} (hx : Reads x) (hy : Reads y) :
    Reads (if p then x else y) := by
  split
  · exact hx
  · exact hy

end Reads

/-- What stands behind a check is reached if the check holds. -/
theorem unless_throw_ok {p : Prop} [Decidable p] {cause : BuildError} {next : PUnit → Build α}
    (h : (if p then next () else throw cause >>= next) b = .ok r b') :
    p ∧ next () b = .ok r b' := by
  simpa only [ite_run, Outcome.andThen_ok, throw_ok, false_and, exists_false, and_false,
    or_false] using h

theorem unless_throw_error {p : Prop} [Decidable p] {cause : BuildError} {next : PUnit → Build α}
    (h : (if p then next () else throw cause >>= next) b = .error e b') :
    (p ∧ next () b = .error e b') ∨ (¬p ∧ b' = b) := by
  simp only [ite_run, Outcome.andThen_error, throw_error, throw_ok, false_and, exists_false,
    or_false] at h
  exact h.imp_right fun h => ⟨h.1, h.2.2⟩

theorem chain_reads (id : ScopeId) : Reads (chain id) where
  done h := (chain_ok.mp h).2
  refused h := (chain_error.mp h).2.2

theorem construct?_reads (site : Site) : Reads (construct? site) where
  done h := (construct?_ok.mp h).2
  refused h := (construct?_error.mp h).elim

theorem isTaken_reads (id : ScopeId) (name : String) : Reads (isTaken id name) :=
  (chain_reads id).andThen fun _ => Reads.get.andThen fun _ => .pure _

theorem requireFree_reads (id : ScopeId) (name : String) (cause : BuildError) :
    Reads (requireFree id name cause) :=
  (chain_reads id).andThen fun _ => .ite (.throw _) (.pure _)

theorem resolve_reads (id : ScopeId) (f : Fragment) : Reads (resolve id f) :=
  (chain_reads id).andThen fun _ => Reads.get.andThen fun _ => .ofExcept _

theorem requireType_reads (expected : Ty) (v : Expr) : Reads (requireType expected v) :=
  .ite (.pure _) (.throw _)

theorem requireReturn_reads (found : Ty) : Reads (requireReturn found) :=
  Reads.get.andThen fun _ => .ite (.pure _) (.throw _)

theorem condition_reads (id : ScopeId) (test : Fragment) : Reads (condition id test) :=
  (resolve_reads id test).andThen fun _ => (requireType_reads _ _).andThen fun _ => .pure _

theorem matchValue_reads (site : Site) (discriminant : Expr) (value : Fragment) :
    Reads (matchValue site discriminant value) :=
  (resolve_reads _ _).andThen fun _ => (requireType_reads _ _).andThen fun _ => .pure _

/-! ## What checks establish -/

theorem resolve_settles {id : ScopeId} {f : Fragment} {v : Expr} (hf : F f)
    (h : resolve id f b = .ok v b') : ∃ c, b.top.chain? id = some c ∧ b.Settles F c v := by
  obtain ⟨⟨c, hc⟩, hr, rfl⟩ := resolve_ok.mp h
  refine ⟨c, hc, ?_⟩
  have hcontext : b'.context id = c.context b'.options.allowCaptures := by
    have : b'.chain id = c := by rw [Builder.chain, hc]; rfl
    rw [← this]
    rfl
  exact ⟨f, hf, hcontext ▸ hr⟩

theorem condition_settles {id : ScopeId} {f : Fragment} {v : Expr} (hf : F f)
    (h : condition id f b = .ok v b') :
    ∃ c, b.top.chain? id = some c ∧ b.Settles F c v ∧ Suits .bool v := by
  obtain ⟨v', hr, h⟩ := (resolve_reads id f).andThen_ok h
  simp only [andThen_ok, requireType_ok, pure_ok] at h
  obtain ⟨_, _, ⟨suits, rfl⟩, rfl, rfl⟩ := h
  obtain ⟨c, hc, settled⟩ := resolve_settles hf hr
  exact ⟨c, hc, settled, suits⟩

theorem matchValue_settles {site : Site} {discriminant v : Expr} {f : Fragment} (hf : F f)
    (h : matchValue site discriminant f b = .ok v b') :
    ∃ c, b.top.chain? site.scope = some c ∧ b.Settles F c v ∧ Suits discriminant.type v := by
  obtain ⟨v', hr, h⟩ := (resolve_reads _ f).andThen_ok h
  simp only [andThen_ok, requireType_ok, pure_ok] at h
  obtain ⟨_, _, ⟨suits, rfl⟩, rfl, rfl⟩ := h
  obtain ⟨c, hc, settled⟩ := resolve_settles hf hr
  exact ⟨c, hc, settled, suits⟩

/-! ## Operations that edit -/

/-- The operation is a row of edits, or it is refused and nothing happens. -/
structure Keeps (F : Fragment → Prop) (x : Build α) : Prop where
  done : ∀ {b r b'}, b.Built F → x b = .ok r b' → b.Edits F b'
  refused : ∀ {b e b'}, x b = .error e b' → b' = b

theorem Reads.keeps {x : Build α} (hx : Reads x) : Keeps F x where
  done _ h := hx.done h ▸ .refl
  refused h := hx.refused h

/-- What is done with the result does not matter. -/
theorem Keeps.map {x : Build α} (hx : Keeps F x) (f : α → β) :
    Keeps F (x >>= fun a => pure (f a)) where
  done hb h := by
    obtain ⟨a, b₁, ha, hp⟩ := Outcome.andThen_ok.mp h
    obtain ⟨-, rfl⟩ := pure_ok.mp hp
    exact hx.done hb ha
  refused h := by
    rcases Outcome.andThen_error.mp h with h | ⟨a, b₁, -, hp⟩
    · exact hx.refused h
    · exact (pure_error.mp hp).elim

/-- A scope with a chain is found. -/
theorem exists_find?_of_chain? {id : ScopeId} {c : Chain} (h : b.top.chain? id = some c) :
    b.top.find? id ≠ none := by
  obtain ⟨outer, s, hs, hid, -⟩ := Scope.exists_of_chain? h
  intro hnone
  have := List.find?_eq_none.mp hnone s (Scope.mem_subscopes_iff.mpr ⟨outer, hs⟩)
  simp [hid] at this

end Build

namespace Builder

variable {F : Fragment → Prop} {b b₁ : Builder}

/-- Statements are added to a scope that has a chain. -/
theorem edits_add {id : ScopeId} {c : Chain} {stmts : List (Stmt Scope)}
    (hc : b.top.chain? id = some c) (adds : b.Adds F c stmts b₁) :
    b.Edits F (b₁.changing id (addStmts stmts)) := by
  obtain ⟨outer, s, place, rfl, rfl⟩ := Scope.exists_of_chain? hc
  exact (Edit.add place adds).edits

/-- What stands at a site stands in a scope with a chain. -/
theorem Built.site {site : Site} {old : Stmt Scope} (hb : b.Built F)
    (h : (b.top.find? site.scope).bind (·.stmts[site.index]?) = some old) :
    ∃ c, b.top.chain? site.scope = some c ∧
      ∀ {new b₁}, b.Grows F c old new b₁ →
        b.Edits F (b₁.changing site.scope (setStmt site.index new)) := by
  obtain ⟨s, hs, hold⟩ := Option.bind_eq_some_iff.mp h
  obtain ⟨outer, place, hid⟩ := Scope.exists_of_find? hs
  refine ⟨s.frame :: outer, ?_, fun grows => ?_⟩
  · rw [← hid]
    exact place.chain?_eq hb.numbered.distinct
  · rw [← hid]
    exact (Edit.grow place hold grows).edits

end Builder

namespace Build

open Outcome

variable {F : Fragment → Prop} {b b' : Builder}

/-! ## Statements -/

theorem bind_keeps (id : ScopeId) (name : String) (ty : Ty) :
    Keeps F (bind id name ty Frame.addLocal) where
  done hb h := by
    obtain ⟨c, hc, new, newInside, rfl, rfl⟩ := bind_ok.mp h
    obtain ⟨outer, s, place, rfl, rfl⟩ := Scope.exists_of_chain? hc
    rw [place.find?_eq hb.numbered.distinct] at newInside
    exact (Builder.Edit.declare place new newInside).edits
  refused h := by
    rcases (isTaken_reads id name).andThen_error h with h | ⟨taken, -, h⟩
    · exact h
    · simp only [ite_run, andThen_error, throw_error, makeSymbol_error, updateScope_error,
        pure_error, throw_ok, exists_false, and_false, or_false] at h
      exact h.2.2

theorem target_refused {id : ScopeId} {name : String} {ty : Ty} {e : BuildError}
    (h : target id name ty b = .error e b') : b' = b := by
  rw [target, get_andThen] at h
  cases hl : b.lookup id name with
  | some s =>
    rw [hl] at h
    exact (Reads.ite (.pure _) (.throw _)).refused h
  | none =>
    rw [hl] at h
    exact (bind_keeps id name ty : Keeps (fun _ => True) _).refused h

theorem assign_keeps (id : ScopeId) (name : String) (ty : Ty) {value : Fragment} (hf : F value) :
    Keeps F (assign id name ty value) where
  done {b r b'} hb h := by
    obtain ⟨v, hv, h⟩ := (resolve_reads id value).andThen_ok h
    obtain ⟨_, hsuits, h⟩ := (requireType_reads ty v).andThen_ok h
    obtain ⟨suits, -⟩ := requireType_ok.mp hsuits
    obtain ⟨c, hc, settled⟩ := resolve_settles hf hv
    obtain ⟨s, b₁, ht, h⟩ := andThen_ok.mp h
    obtain rfl := pushNode_ok.mp h
    have hlookup : b.lookup id name = c.lookup name := by
      rw [Builder.lookup, Builder.chain, hc]
      rfl
    rw [target, get_andThen, hlookup] at ht
    cases hl : c.lookup name with
    | some s' =>
      simp only [hl, ite_run, pure_ok, throw_ok, and_false, or_false] at ht
      obtain ⟨hty, rfl, rfl⟩ := ht
      exact Builder.edits_add hc (.assign hl settled (hty ▸ suits))
    | none =>
      -- The variable comes first; the value was resolved before that, and stays closed.
      rw [hl] at ht
      obtain ⟨c', hc', -, newInside, rfl, rfl⟩ := bind_ok.mp ht
      obtain ⟨outer, t, place, rfl, rfl⟩ := Scope.exists_of_chain? hc
      rw [place.find?_eq hb.numbered.distinct] at newInside
      have declared := @Builder.Edit.declare F b outer t name ty place hl newInside
      have place' := place.update_self hb.numbered.distinct rfl
        (f := Builder.addLocal (b.newSymbol 0 name ty)) fun c hc => hc
      have assigned := declared.edits.edit (.add place' (.assign (Chain.lookup_addLocal hl rfl)
        (settled.kept (Chain.kept_addLocal hl rfl _)) suits))
      exact assigned
  refused h := by
    rcases (resolve_reads id value).andThen_error h with h | ⟨v, -, h⟩
    · exact h
    rcases (requireType_reads ty v).andThen_error h with h | ⟨_, -, h⟩
    · exact h
    rcases andThen_error.mp h with h | ⟨s, b₁, -, h⟩
    · exact target_refused h
    · exact (pushNode_error.mp h).elim

theorem act_keeps (id : ScopeId) {f : Fragment} (hf : F f) : Keeps F (act id f) where
  done _ h := by
    obtain ⟨v, hv, h⟩ := (resolve_reads id f).andThen_ok h
    obtain rfl := pushNode_ok.mp h
    obtain ⟨c, hc, settled⟩ := resolve_settles hf hv
    exact Builder.edits_add hc (.act settled)
  refused h := by
    rcases (resolve_reads id f).andThen_error h with h | ⟨v, -, h⟩
    · exact h
    · exact (pushNode_error.mp h).elim

theorem jump_keeps (id : ScopeId) (j : LoopTarget) : Keeps F (jump id j) where
  done _ h := by
    obtain ⟨c, hc, h⟩ := (chain_reads id).andThen_ok h
    obtain ⟨hc, -⟩ := chain_ok.mp hc
    cases hl : c.loopLabels? with
    | none =>
      rw [hl] at h
      exact (throw_ok.mp h).elim
    | some labels =>
      rw [hl] at h
      obtain rfl := pushNode_ok.mp h
      exact Builder.edits_add hc (.jump hl j)
  refused h := by
    rcases (chain_reads id).andThen_error h with h | ⟨c, -, h⟩
    · exact h
    cases hl : c.loopLabels? with
    | none =>
      rw [hl] at h
      exact (Reads.throw _).refused h
    | some labels =>
      rw [hl] at h
      exact (pushNode_error.mp h).elim

theorem requireReturn_ok {found : Ty} {u : Unit} :
    requireReturn found b = .ok u b' ↔ found = b.returnType ∧ b' = b := by
  rw [requireReturn, get_andThen]
  by_cases h : found = b.returnType <;> simp [h]

theorem returnValue_keeps (id : ScopeId) (ty : Ty) {value : Fragment} (hf : F value) :
    Keeps F (returnValue id ty value) where
  done _ h := by
    obtain ⟨_, -, h⟩ := (requireReturn_reads ty).andThen_ok h
    obtain ⟨v, hv, h⟩ := (resolve_reads id value).andThen_ok h
    rw [get_andThen] at h
    obtain ⟨c, hc, settled⟩ := resolve_settles hf hv
    rcases ite_run.mp h with ⟨hnull, h⟩ | ⟨-, h⟩
    · obtain rfl := pushNode_ok.mp h
      exact Builder.edits_add hc (.returnValue settled (.inl (Bool.and_eq_true_iff.mp hnull)))
    · obtain ⟨_, htype, h⟩ := (requireReturn_reads v.type).andThen_ok h
      obtain rfl := pushNode_ok.mp h
      exact Builder.edits_add hc (.returnValue settled (.inr (requireReturn_ok.mp htype).1))
  refused h := by
    rcases (requireReturn_reads ty).andThen_error h with h | ⟨_, -, h⟩
    · exact h
    rcases (resolve_reads id value).andThen_error h with h | ⟨v, -, h⟩
    · exact h
    rw [get_andThen] at h
    rcases ite_run.mp h with ⟨-, h⟩ | ⟨-, h⟩
    · exact (pushNode_error.mp h).elim
    · rcases (requireReturn_reads v.type).andThen_error h with h | ⟨_, -, h⟩
      · exact h
      · exact (pushNode_error.mp h).elim

theorem returnVoid_keeps (id : ScopeId) : Keeps F (returnVoid id) where
  done _ h := by
    obtain ⟨c, hc, h⟩ := (chain_reads id).andThen_ok h
    obtain ⟨_, hvoid, h⟩ := (requireReturn_reads _).andThen_ok h
    rw [get_andThen] at h
    obtain rfl := pushNode_ok.mp h
    exact Builder.edits_add (chain_ok.mp hc).1 (.returnVoid (requireReturn_ok.mp hvoid).1.symm)
  refused h := by
    rcases (chain_reads id).andThen_error h with h | ⟨c, -, h⟩
    · exact h
    rcases (requireReturn_reads _).andThen_error h with h | ⟨_, -, h⟩
    · exact h
    · exact (pushNode_error.mp h).elim

theorem goto_keeps (id : ScopeId) (name : String) : Keeps F (goto id name) where
  done _ h := by
    obtain ⟨c, hc, h⟩ := (chain_reads id).andThen_ok h
    obtain rfl := push_ok.mp h
    exact Builder.edits_add (chain_ok.mp hc).1 (.goto name)
  refused h := by
    rcases (chain_reads id).andThen_error h with h | ⟨c, -, h⟩
    · exact h
    · exact (push_error.mp h).elim

theorem label_keeps (id : ScopeId) (name : String) : Keeps F (label id name) where
  done {b r b'} _ h := by
    obtain ⟨c, hc, h⟩ := (chain_reads id).andThen_ok h
    rw [get_andThen] at h
    cases hl : b.label? name with
    | some l => simp [hl] at h
    | none =>
      simp only [hl, Option.isSome_none, Bool.false_eq_true, if_false, andThen_ok, makeLabelId_ok,
        modify_ok, pushNode_ok] at h
      obtain ⟨_, _, ⟨rfl, rfl⟩, _, _, rfl, rfl⟩ := h
      exact Builder.edits_add (chain_ok.mp hc).1 (.label hl)
  refused {b e b'} h := by
    rcases (chain_reads id).andThen_error h with h | ⟨c, -, h⟩
    · exact h
    rw [get_andThen] at h
    cases hl : b.label? name with
    | some l =>
      simp [hl] at h
      exact h.2
    | none => simp [hl] at h

theorem raise_keeps (id : ScopeId) {value : Fragment} (hf : F value) :
    Keeps F (raise id value) where
  done _ h := by
    obtain ⟨v, hv, h⟩ := (resolve_reads id value).andThen_ok h
    obtain ⟨reference, h⟩ := unless_throw_ok h
    obtain rfl := pushNode_ok.mp h
    obtain ⟨c, hc, settled⟩ := resolve_settles hf hv
    exact Builder.edits_add hc (.throw settled reference)
  refused h := by
    rcases (resolve_reads id value).andThen_error h with h | ⟨v, -, h⟩
    · exact h
    rcases unless_throw_error h with ⟨-, h⟩ | ⟨-, h⟩
    · exact (pushNode_error.mp h).elim
    · exact h

theorem rethrow_keeps (id : ScopeId) : Keeps F (rethrow id) where
  done _ h := by
    obtain ⟨c, hc, h⟩ := (chain_reads id).andThen_ok h
    obtain ⟨handler, h⟩ := unless_throw_ok h
    obtain rfl := pushNode_ok.mp h
    exact Builder.edits_add (chain_ok.mp hc).1 (.rethrow handler)
  refused h := by
    rcases (chain_reads id).andThen_error h with h | ⟨c, -, h⟩
    · exact h
    rcases unless_throw_error h with ⟨-, h⟩ | ⟨-, h⟩
    · exact (pushNode_error.mp h).elim
    · exact h

theorem statement_keeps (id : ScopeId) {s : Statement} (hs : ∀ f ∈ s.fragments, F f) :
    Keeps F (statement id s) := by
  cases s with
  | declare name ty => exact (bind_keeps id name ty).map _
  | assign name ty value => exact assign_keeps id name ty (hs value (List.mem_singleton_self _))
  | act f => exact act_keeps id (hs f (List.mem_singleton_self _))
  | jump j => exact jump_keeps id j
  | returnValue ty value => exact returnValue_keeps id ty (hs value (List.mem_singleton_self _))
  | returnVoid => exact returnVoid_keeps id
  | goto name => exact goto_keeps id name
  | label name => exact label_keeps id name
  | throw value => exact raise_keeps id (hs value (List.mem_singleton_self _))
  | rethrow => exact rethrow_keeps id

end Build

end StructuredFlow
