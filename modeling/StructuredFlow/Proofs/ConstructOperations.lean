import StructuredFlow.Proofs.Operations

/-
  The operations on constructs are edits too: opening one adds its statement, with the first of its
  scopes, and each step on it makes it grow where it stands.
-/

namespace StructuredFlow

namespace Build

open Outcome

variable {F : Fragment → Prop} {b b' : Builder} {e : BuildError}

/-- A construct that stands at a site, with the chain that it stands in. -/
theorem site_of_construct? {site : Site} {old : Option (Stmt Scope)}
    (h : construct? site b = .ok old b') :
    old = (b.top.find? site.scope).bind (·.stmts[site.index]?) :=
  (construct?_ok.mp h).1

/-- A construct is put at the end of a scope that has a chain. -/
theorem pushConstruct_refused {id : ScopeId} {stmt : Stmt Scope} {c : Chain}
    (hc : b.top.chain? id = some c) : ¬pushConstruct id stmt b = .error e b' :=
  fun h => exists_find?_of_chain? hc (pushConstruct_error.mp h).1

theorem addStmts_pair (x y : Stmt Scope) :
    Builder.addStmts [x, y] = fun s => (s.push x).push y := by
  funext s
  rw [Builder.addStmts, Scope.push, Scope.push, List.append_assoc]
  rfl

/-- A scope without symbols takes a name that is new along the chain around it. -/
theorem lookup_cons_of_symbols {fr : Frame} {c : Chain} {name : String} (h : fr.symbols = [])
    (new : c.lookup name = none) : Chain.lookup (fr :: c) name = none := by
  have hfr : fr.named? name = none := by rw [Frame.named?, h]; rfl
  rw [Chain.lookup, List.findSome?_cons, hfr]
  exact new

/-- A scope that nothing has been put into has no name inside. -/
theorem hasNameInside_leaf {s : Scope} (h : s.children = []) (name : String) :
    s.hasNameInside name = false := by
  rw [Scope.hasNameInside, Builder.frames_leaf h]
  rfl

/-- The binding in a new scope is never refused, once the name is known to be free around it. -/
theorem bindNew_refused {id : ScopeId} {scope : Scope} {name : String} {ty : Ty}
    {add : Frame → Symbol → Frame} {c : Chain} (hc : b.top.chain? id = some c)
    (hscope : scope.frame.symbols = []) (leaf : scope.children = [])
    (new : c.lookup name = none) : ¬bindNew id scope name ty add b = .error e b' := by
  intro h
  rcases andThen_error.mp h with hnone | ⟨c', b₁, hc', hrest⟩
  · rw [(chain_error.mp hnone).1] at hc
    cases hc
  · obtain ⟨hc', rfl⟩ := chain_ok.mp hc'
    obtain rfl := Option.some.inj (hc'.symm.trans hc)
    rcases ite_run.mp hrest with ⟨taken, -⟩ | ⟨-, hrest⟩
    · rw [lookup_cons_of_symbols hscope new, hasNameInside_leaf leaf] at taken
      cases taken
    · simp at hrest

/-! ## Conditionals -/

theorem openIf_keeps (id : ScopeId) {test : Fragment} (hf : F test) :
    Keeps F (openIf id test) where
  done _ h := by
    obtain ⟨v, hv, h⟩ := (condition_reads id test).andThen_ok h
    obtain ⟨c, hc, settled, suits⟩ := condition_settles hf hv
    simp only [andThen_ok, makeScope_ok, pushConstruct_ok, pure_ok] at h
    obtain ⟨_, _, ⟨rfl, rfl⟩, _, _, ⟨s, -, rfl, rfl⟩, -, rfl⟩ := h
    exact Builder.edits_add hc (.conditional settled suits)
  refused h := by
    rcases (condition_reads id test).andThen_error h with h | ⟨v, hv, h⟩
    · exact h
    obtain ⟨c, hc, -⟩ := condition_settles hf hv
    simp only [andThen_error, makeScope_error, makeScope_ok, pure_error, false_or, exists_false,
      and_false, or_false] at h
    obtain ⟨_, _, ⟨rfl, rfl⟩, h⟩ := h
    exact absurd h (pushConstruct_refused hc)

theorem openElse_keeps (site : Site) : Keeps F (openElse site) where
  done {b r b'} hb h := by
    obtain ⟨old, hold, h⟩ := (construct?_reads site).andThen_ok h
    have hold := site_of_construct? hold
    split at h
    next links =>
      simp only [andThen_ok, makeScope_ok, replaceConstruct_ok, pure_ok] at h
      obtain ⟨_, _, ⟨rfl, rfl⟩, _, _, rfl, -, rfl⟩ := h
      obtain ⟨c, hc, grow⟩ := hb.site hold.symm
      exact grow .otherwise
    · exact (throw_ok.mp h).elim
    · exact (throw_ok.mp h).elim
  refused h := by
    rcases (construct?_reads site).andThen_error h with h | ⟨old, hold, h⟩
    · exact h
    split at h
    · simp at h
    · exact (Reads.throw _).refused h
    · exact (Reads.throw _).refused h

theorem openElseIf_keeps (site : Site) {test : Fragment} (hf : F test) :
    Keeps F (openElseIf site test) where
  done {b r b'} hb h := by
    obtain ⟨old, hold, h⟩ := (construct?_reads site).andThen_ok h
    have hold := site_of_construct? hold
    split at h
    next links =>
      obtain ⟨v, hv, h⟩ := (condition_reads _ test).andThen_ok h
      simp only [andThen_ok, makeScope_ok, replaceConstruct_ok, pure_ok] at h
      obtain ⟨_, _, ⟨rfl, rfl⟩, _, _, rfl, -, rfl⟩ := h
      obtain ⟨c, hc, grow⟩ := hb.site hold.symm
      obtain ⟨c', hc', settled, suits⟩ := condition_settles hf hv
      obtain rfl := Option.some.inj (hc'.symm.trans hc)
      exact grow (.link settled suits)
    · exact (throw_ok.mp h).elim
    · exact (throw_ok.mp h).elim
  refused h := by
    rcases (construct?_reads site).andThen_error h with h | ⟨old, hold, h⟩
    · exact h
    split at h
    · rcases (condition_reads _ test).andThen_error h with h | ⟨v, -, h⟩
      · exact h
      · simp at h
    · exact (Reads.throw _).refused h
    · exact (Reads.throw _).refused h

/-! ## Loops -/

theorem makeLoop_ok {condition : Expr} {r : Loop × Label × Scope} :
    makeLoop condition b = .ok r b' ↔
      r = (b.newLoop condition, b.newEntry, b.newBody) ∧ b' = b.taking 1 0 3 := by
  simp only [makeLoop, andThen_ok, makeLabel_ok, makeScope_ok, pure_ok]
  constructor
  · rintro ⟨_, _, ⟨rfl, rfl⟩, _, _, ⟨rfl, rfl⟩, _, _, ⟨rfl, rfl⟩, _, _, ⟨rfl, rfl⟩, rfl, rfl⟩
    exact ⟨rfl, rfl⟩
  · rintro ⟨rfl, rfl⟩
    exact ⟨_, _, ⟨rfl, rfl⟩, _, _, ⟨rfl, rfl⟩, _, _, ⟨rfl, rfl⟩, _, _, ⟨rfl, rfl⟩, rfl, rfl⟩

theorem makeLoop_error {condition : Expr} : makeLoop condition b = .error e b' ↔ False := by
  simp [makeLoop]

theorem openWhile_keeps (id : ScopeId) {test : Fragment} (hf : F test) :
    Keeps F (openWhile id test) where
  done _ h := by
    obtain ⟨v, hv, h⟩ := (condition_reads id test).andThen_ok h
    obtain ⟨c, hc, settled, suits⟩ := condition_settles hf hv
    simp only [andThen_ok, makeLoop_ok, push_ok, pure_ok] at h
    obtain ⟨_, _, ⟨rfl, rfl⟩, _, _, rfl, -, rfl⟩ := h
    exact Builder.edits_add hc (.whileLoop settled suits)
  refused h := by
    rcases (condition_reads id test).andThen_error h with h | ⟨v, -, h⟩
    · exact h
    · simp [makeLoop_error] at h

theorem openDoWhile_keeps (id : ScopeId) {test : Fragment} (hf : F test) :
    Keeps F (openDoWhile id test) where
  done _ h := by
    obtain ⟨v, hv, h⟩ := (condition_reads id test).andThen_ok h
    obtain ⟨c, hc, settled, suits⟩ := condition_settles hf hv
    simp only [andThen_ok, makeLoop_ok, pushNode_ok, push_ok, pure_ok] at h
    obtain ⟨_, _, ⟨rfl, rfl⟩, _, _, rfl, _, _, rfl, -, rfl⟩ := h
    have built := Builder.edits_add hc (.doWhile settled suits)
    rw [Builder.changing, addStmts_pair] at built
    rw [Scope.update_push_node]
    exact built
  refused h := by
    rcases (condition_reads id test).andThen_error h with h | ⟨v, -, h⟩
    · exact h
    · simp [makeLoop_error] at h

theorem makeIteration_ok {id : ScopeId} {name : String} {ty iteratorType : Ty}
    {r : Symbol × Loop × Symbol × Scope} (h : makeIteration id name ty iteratorType b = .ok r b') :
    r = (b.newIterator iteratorType,
        b.newLoop (.intrinsic .moveNext [.var (b.newIterator iteratorType)]),
        b.newSymbol 1 name ty, b.newBody.modifyFrame (·.addLocal (b.newSymbol 1 name ty))) ∧
      b' = b.taking 1 2 3 := by
  simp only [makeIteration, andThen_ok, makeSymbol_ok, makeLoop_ok, bindNew_ok, pure_ok] at h
  obtain ⟨_, _, ⟨rfl, rfl⟩, _, _, ⟨rfl, rfl⟩, _, _, ⟨_, -, -, -, rfl, rfl⟩, rfl, rfl⟩ := h
  exact ⟨rfl, rfl⟩

/-- The name is free before the loop is made, and it stays so up to the binding. -/
theorem makeIteration_refused {id : ScopeId} {name : String} {ty iteratorType : Ty} {c : Chain}
    (hc : b.top.chain? id = some c) (new : c.lookup name = none) :
    ¬makeIteration id name ty iteratorType b = .error e b' := by
  intro h
  simp only [makeIteration, andThen_error, makeSymbol_error, makeSymbol_ok, makeLoop_ok,
    makeLoop_error, pure_error, false_or, exists_false, and_false, or_false] at h
  obtain ⟨_, _, ⟨rfl, rfl⟩, _, _, ⟨rfl, rfl⟩, h⟩ := h
  exact absurd h (bindNew_refused hc rfl rfl new)

theorem openForEach_keeps (id : ScopeId) (name : String) (ty : Ty) {collection : Fragment}
    (hf : F collection) : Keeps F (openForEach id name ty collection) where
  done _ h := by
    obtain ⟨v, hv, h⟩ := (resolve_reads id collection).andThen_ok h
    obtain ⟨c, hc, settled⟩ := resolve_settles hf hv
    cases iterable : v.type.iteratorType? with
    | none => simp [iterable] at h
    | some iteratorType =>
      simp only [iterable] at h
      cases yields : iteratorType.elementType? with
      | none => simp [yields] at h
      | some element =>
        simp only [yields] at h
        obtain ⟨converts, h⟩ := unless_throw_ok h
        obtain ⟨_, hfree, h⟩ := (requireFree_reads _ _ _).andThen_ok h
        obtain ⟨c', hc', new, -⟩ := requireFree_ok.mp hfree
        obtain rfl := Option.some.inj (hc'.symm.trans hc)
        obtain ⟨r, b₁, hmade, h⟩ := andThen_ok.mp h
        obtain ⟨rfl, rfl⟩ := makeIteration_ok hmade
        simp only [andThen_ok, push_ok, pure_ok] at h
        obtain ⟨_, _, rfl, -, rfl⟩ := h
        exact Builder.edits_add hc (.iteration settled iterable yields converts new)
  refused h := by
    rcases (resolve_reads id collection).andThen_error h with h | ⟨v, hv, h⟩
    · exact h
    cases iterable : v.type.iteratorType? with
    | none =>
      simp only [iterable] at h
      exact (Reads.throw _).refused h
    | some iteratorType =>
      simp only [iterable] at h
      cases yields : iteratorType.elementType? with
      | none =>
        simp only [yields] at h
        exact (Reads.throw _).refused h
      | some element =>
        simp only [yields] at h
        rcases unless_throw_error h with ⟨-, h⟩ | ⟨-, h⟩
        · rcases (requireFree_reads _ _ _).andThen_error h with h | ⟨_, hfree, h⟩
          · exact h
          obtain ⟨c, hc, new, -⟩ := requireFree_ok.mp hfree
          simp only [andThen_error, push_error, pure_error, exists_false, and_false, or_false] at h
          exact absurd h (makeIteration_refused hc new)
        · exact h

/-! ## Switches -/

theorem openSwitch_keeps (id : ScopeId) {value : Fragment} (hf : F value) :
    Keeps F (openSwitch id value) where
  done _ h := by
    obtain ⟨v, hv, h⟩ := (resolve_reads id value).andThen_ok h
    obtain ⟨s, -, -, rfl⟩ := pushConstruct_ok.mp h
    obtain ⟨c, hc, settled⟩ := resolve_settles hf hv
    exact Builder.edits_add hc (.switch settled)
  refused h := by
    rcases (resolve_reads id value).andThen_error h with h | ⟨v, hv, h⟩
    · exact h
    obtain ⟨c, hc, -⟩ := resolve_settles hf hv
    exact absurd h (pushConstruct_refused hc)

theorem openGroup_keeps (site : Site) {value : Fragment} (hf : F value) :
    Keeps F (openGroup site value) where
  done {b r b'} hb h := by
    obtain ⟨old, hold, h⟩ := (construct?_reads site).andThen_ok h
    have hold := site_of_construct? hold
    split at h
    · obtain ⟨v, hv, h⟩ := (matchValue_reads site _ value).andThen_ok h
      simp only [andThen_ok, replaceConstruct_ok, pure_ok] at h
      obtain ⟨_, _, rfl, -, rfl⟩ := h
      obtain ⟨c, hc, grow⟩ := hb.site hold.symm
      obtain ⟨c', hc', settled, suits⟩ := matchValue_settles hf hv
      obtain rfl := Option.some.inj (hc'.symm.trans hc)
      exact grow (.group settled suits)
    · exact (throw_ok.mp h).elim
  refused h := by
    rcases (construct?_reads site).andThen_error h with h | ⟨old, -, h⟩
    · exact h
    split at h
    · rcases (matchValue_reads site _ value).andThen_error h with h | ⟨v, -, h⟩
      · exact h
      · simp at h
    · exact (Reads.throw _).refused h

theorem widenGroup_keeps (site : Site) (group : Nat) {value : Fragment} (hf : F value) :
    Keeps F (widenGroup site group value) where
  done {b r b'} hb h := by
    obtain ⟨old, hold, h⟩ := (construct?_reads site).andThen_ok h
    have hold := site_of_construct? hold
    split at h
    · obtain ⟨v, hv, h⟩ := (matchValue_reads site _ value).andThen_ok h
      obtain rfl := replaceConstruct_ok.mp h
      obtain ⟨c, hc, grow⟩ := hb.site hold.symm
      obtain ⟨c', hc', settled, suits⟩ := matchValue_settles hf hv
      obtain rfl := Option.some.inj (hc'.symm.trans hc)
      exact grow (.widen group settled suits)
    · exact (throw_ok.mp h).elim
  refused h := by
    rcases (construct?_reads site).andThen_error h with h | ⟨old, -, h⟩
    · exact h
    split at h
    · rcases (matchValue_reads site _ value).andThen_error h with h | ⟨v, -, h⟩
      · exact h
      · exact (replaceConstruct_error.mp h).elim
    · exact (Reads.throw _).refused h

theorem openGroupBody_keeps (site : Site) (group : Nat) :
    Keeps F (openGroupBody site group) where
  done {b r b'} hb h := by
    obtain ⟨old, hold, h⟩ := (construct?_reads site).andThen_ok h
    have hold := site_of_construct? hold
    split at h
    next groups default _ =>
      cases place : groups[group]? with
      | none =>
        simp only [place] at h
        exact (throw_ok.mp h).elim
      | some g =>
        obtain ⟨values, body⟩ := g
        cases body with
        | some body =>
          simp only [place, pure_ok] at h
          exact h.2 ▸ .refl
        | none =>
          simp only [place, andThen_ok, makeScope_ok, replaceConstruct_ok, pure_ok] at h
          obtain ⟨_, _, ⟨rfl, rfl⟩, _, _, rfl, -, rfl⟩ := h
          obtain ⟨c, hc, grow⟩ := hb.site hold.symm
          exact grow (.groupBody place)
    · exact (throw_ok.mp h).elim
  refused h := by
    rcases (construct?_reads site).andThen_error h with h | ⟨old, -, h⟩
    · exact h
    split at h
    next groups default =>
      cases place : groups[group]? with
      | none =>
        simp only [place] at h
        exact (Reads.throw _).refused h
      | some g =>
        obtain ⟨values, body⟩ := g
        cases body <;> simp [place] at h
    · exact (Reads.throw _).refused h

theorem openDefault_keeps (site : Site) : Keeps F (openDefault site) where
  done {b r b'} hb h := by
    obtain ⟨old, hold, h⟩ := (construct?_reads site).andThen_ok h
    have hold := site_of_construct? hold
    split at h
    · simp only [andThen_ok, makeScope_ok, makeLabel_ok, replaceConstruct_ok, pure_ok] at h
      obtain ⟨_, _, ⟨rfl, rfl⟩, _, _, ⟨rfl, rfl⟩, _, _, rfl, -, rfl⟩ := h
      obtain ⟨c, hc, grow⟩ := hb.site hold.symm
      exact grow .default
    · exact (throw_ok.mp h).elim
    · exact (throw_ok.mp h).elim
  refused h := by
    rcases (construct?_reads site).andThen_error h with h | ⟨old, -, h⟩
    · exact h
    split at h
    · simp at h
    · exact (Reads.throw _).refused h
    · exact (Reads.throw _).refused h

/-! ## Guarded regions -/

theorem openTry_keeps (id : ScopeId) : Keeps F (openTry id) where
  done _ h := by
    obtain ⟨c, hc, h⟩ := (chain_reads id).andThen_ok h
    simp only [andThen_ok, makeScope_ok, pushConstruct_ok, pure_ok] at h
    obtain ⟨_, _, ⟨rfl, rfl⟩, _, _, ⟨s, -, rfl, rfl⟩, -, rfl⟩ := h
    exact Builder.edits_add (chain_ok.mp hc).1 .attempt
  refused h := by
    rcases (chain_reads id).andThen_error h with h | ⟨c, hc, h⟩
    · exact h
    simp only [andThen_error, makeScope_error, makeScope_ok, pure_error, false_or, exists_false,
      and_false, or_false] at h
    obtain ⟨_, _, ⟨rfl, rfl⟩, h⟩ := h
    exact absurd h (pushConstruct_refused (chain_ok.mp hc).1)

/-- The name of an exception is checked as a name that has to be free, if there is one. -/
theorem forM_requireFree_reads (id : ScopeId) (name : Option String) :
    Reads (name.forM fun name => requireFree id name (.duplicateVariable name)) := by
  cases name with
  | none => exact .pure _
  | some name => exact requireFree_reads _ _ _

theorem makeHandler_none_ok {id : ScopeId} {kind : Ty} {r : Handler Scope}
    (h : makeHandler id kind none b = .ok r b') :
    r = ⟨kind, none, b.newScope .catchBody⟩ ∧ b' = b.taking 1 0 0 := by
  simp only [makeHandler, bindException, andThen_ok, makeScope_ok, pure_ok] at h
  obtain ⟨_, _, ⟨rfl, rfl⟩, _, _, ⟨rfl, rfl⟩, rfl, rfl⟩ := h
  exact ⟨rfl, rfl⟩

theorem makeHandler_some_ok {id : ScopeId} {kind : Ty} {name : String} {r : Handler Scope}
    (h : makeHandler id kind (some name) b = .ok r b') :
    r = ⟨kind, some (b.newSymbol 0 name kind), b.newScopeWith .catchBody name kind⟩ ∧
      b' = b.taking 1 1 0 := by
  simp only [makeHandler, bindException, andThen_ok, makeScope_ok, bindNew_ok, pure_ok] at h
  obtain ⟨_, _, ⟨rfl, rfl⟩, _, _, ⟨_, _, ⟨_, -, -, -, rfl, rfl⟩, rfl, rfl⟩, rfl, rfl⟩ := h
  exact ⟨rfl, rfl⟩

/-- A handler is always made, if the name for the exception is free or there is none. -/
theorem makeHandler_refused {id : ScopeId} {kind : Ty} {name : Option String}
    (hfree : ∀ n ∈ name, ∃ c, b.top.chain? id = some c ∧ c.lookup n = none) :
    ¬makeHandler id kind name b = .error e b' := by
  intro h
  cases name with
  | none => simp [makeHandler, bindException] at h
  | some n =>
    obtain ⟨c, hc, new⟩ := hfree n rfl
    simp only [makeHandler, andThen_error, makeScope_error, makeScope_ok, bindException,
      pure_error, false_or, exists_false, and_false, or_false] at h
    obtain ⟨_, _, ⟨rfl, rfl⟩, h⟩ := h
    exact absurd h (bindNew_refused hc rfl rfl new)

theorem openCatch_keeps (site : Site) (kind : Ty) (name : Option String) :
    Keeps F (openCatch site kind name) where
  done {b r b'} hb h := by
    obtain ⟨reference, h⟩ := unless_throw_ok h
    obtain ⟨_, hfree, h⟩ := (forM_requireFree_reads site.scope name).andThen_ok h
    obtain ⟨old, hold, h⟩ := (construct?_reads site).andThen_ok h
    have hold := site_of_construct? hold
    split at h
    · obtain ⟨c, hc, grow⟩ := hb.site hold.symm
      cases name with
      | none =>
        obtain ⟨r, b₁, hmade, h⟩ := andThen_ok.mp h
        obtain ⟨rfl, rfl⟩ := makeHandler_none_ok hmade
        simp only [andThen_ok, replaceConstruct_ok, pure_ok] at h
        obtain ⟨_, _, rfl, -, rfl⟩ := h
        exact grow (.handler reference)
      | some name =>
        obtain ⟨c', hc', new, -⟩ := requireFree_ok.mp hfree
        obtain rfl := Option.some.inj (hc'.symm.trans hc)
        obtain ⟨r, b₁, hmade, h⟩ := andThen_ok.mp h
        obtain ⟨rfl, rfl⟩ := makeHandler_some_ok hmade
        simp only [andThen_ok, replaceConstruct_ok, pure_ok] at h
        obtain ⟨_, _, rfl, -, rfl⟩ := h
        exact grow (.handlerWith reference new)
    · exact (throw_ok.mp h).elim
  refused h := by
    rcases unless_throw_error h with ⟨-, h⟩ | ⟨-, h⟩
    · rcases (forM_requireFree_reads site.scope name).andThen_error h with h | ⟨_, hfree, h⟩
      · exact h
      rcases (construct?_reads site).andThen_error h with h | ⟨old, -, h⟩
      · exact h
      split at h
      · simp only [andThen_error, replaceConstruct_error, pure_error, exists_false, and_false,
          or_false] at h
        refine absurd h (makeHandler_refused fun n hn => ?_)
        obtain rfl := Option.mem_def.mp hn
        obtain ⟨c, hc, new, -⟩ := requireFree_ok.mp hfree
        exact ⟨c, hc, new⟩
      · exact (Reads.throw _).refused h
    · exact h

theorem openFinally_keeps (site : Site) : Keeps F (openFinally site) where
  done {b r b'} hb h := by
    obtain ⟨old, hold, h⟩ := (construct?_reads site).andThen_ok h
    have hold := site_of_construct? hold
    split at h
    · simp only [andThen_ok, makeScope_ok, replaceConstruct_ok, pure_ok] at h
      obtain ⟨_, _, ⟨rfl, rfl⟩, _, _, rfl, -, rfl⟩ := h
      obtain ⟨c, hc, grow⟩ := hb.site hold.symm
      exact grow .cleanup
    · exact (throw_ok.mp h).elim
    · exact (throw_ok.mp h).elim
  refused h := by
    rcases (construct?_reads site).andThen_error h with h | ⟨old, -, h⟩
    · exact h
    split at h
    · simp at h
    · exact (Reads.throw _).refused h
    · exact (Reads.throw _).refused h

theorem endTry_reads (site : Site) : Reads (endTry site) := by
  refine (construct?_reads site).andThen fun old => ?_
  split
  · exact .throw _
  · exact .pure _
  · exact .throw _

/-! ## Resources -/

theorem makeResource_ok {id : ScopeId} {name : String} {ty : Ty} {r : Symbol × Scope}
    (h : makeResource id name ty b = .ok r b') :
    r = (b.newSymbol 0 name ty, b.newScopeWith .plain name ty) ∧ b' = b.taking 1 1 0 := by
  simp only [makeResource, andThen_ok, makeScope_ok, bindNew_ok] at h
  obtain ⟨_, _, ⟨rfl, rfl⟩, _, -, -, -, rfl, rfl⟩ := h
  exact ⟨rfl, rfl⟩

theorem makeResource_refused {id : ScopeId} {name : String} {ty : Ty} {c : Chain}
    (hc : b.top.chain? id = some c) (new : c.lookup name = none) :
    ¬makeResource id name ty b = .error e b' := by
  intro h
  simp only [makeResource, andThen_error, makeScope_error, makeScope_ok, false_or] at h
  obtain ⟨_, _, ⟨rfl, rfl⟩, h⟩ := h
  exact absurd h (bindNew_refused hc rfl rfl new)

theorem openUsing_keeps (id : ScopeId) (name : String) (ty : Ty) {producer : Fragment}
    (hf : F producer) : Keeps F (openUsing id name ty producer) where
  done {b r b'} _ h := by
    obtain ⟨v, hv, h⟩ := (resolve_reads id producer).andThen_ok h
    obtain ⟨c, hc, settled⟩ := resolve_settles hf hv
    obtain ⟨_, hsuits, h⟩ := (requireType_reads ty v).andThen_ok h
    obtain ⟨_, hfree, h⟩ := (requireFree_reads _ _ _).andThen_ok h
    obtain ⟨c', hc', new, -⟩ := requireFree_ok.mp hfree
    obtain rfl := Option.some.inj (hc'.symm.trans hc)
    obtain ⟨r, b₁, hmade, h⟩ := andThen_ok.mp h
    obtain ⟨rfl, rfl⟩ := makeResource_ok hmade
    simp only [andThen_ok, push_ok, pure_ok] at h
    obtain ⟨_, _, rfl, -, rfl⟩ := h
    exact Builder.edits_add hc (.resource settled (requireType_ok.mp hsuits).1 new)
  refused h := by
    rcases (resolve_reads id producer).andThen_error h with h | ⟨v, -, h⟩
    · exact h
    rcases (requireType_reads ty v).andThen_error h with h | ⟨_, -, h⟩
    · exact h
    rcases (requireFree_reads _ _ _).andThen_error h with h | ⟨_, hfree, h⟩
    · exact h
    obtain ⟨c, hc, new, -⟩ := requireFree_ok.mp hfree
    simp only [andThen_error, push_error, pure_error, exists_false, and_false, or_false] at h
    exact absurd h (makeResource_refused hc new)

end Build

end StructuredFlow
