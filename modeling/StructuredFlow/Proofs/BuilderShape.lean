import StructuredFlow.Proofs.BuilderEdit
import StructuredFlow.Proofs.ScopeUpdate

/-
  What an edit does to the tree of scopes, whatever the statements are: one frame gets a symbol, or
  one scope gets at most one new scope, with the next number and with nothing in it
  (`Edit.reshapes`). So the numbers of scopes stay distinct and below the count
  (`Built.distinct`, `Built.id_lt`).
-/

namespace StructuredFlow

namespace Builder

variable {F : Fragment → Prop} {b b' : Builder} {c : Chain}

/-- The scopes that an edit brings into a scope with the given chain: none, or the next one, empty
but for a symbol with a name that is new along the chain. -/
inductive NewScopes (b : Builder) (c : Chain) (b' : Builder) : List Scope → Prop
  | none (scopeCount : b'.scopeCount = b.scopeCount)
      (symbolCount : b'.symbolCount = b.symbolCount) : NewScopes b c b' []
  | bare {n : Scope} (id : n.frame.id = b.scopeCount) (leaf : n.children = [])
      (symbols : n.frame.symbols = []) (scopeCount : b'.scopeCount = b.scopeCount + 1)
      (symbolCount : b'.symbolCount = b.symbolCount) : NewScopes b c b' [n]
  | named {n : Scope} {x : Symbol} {name : String} (id : n.frame.id = b.scopeCount)
      (leaf : n.children = []) (symbols : n.frame.symbols = [x]) (xname : x.name = some name)
      (new : c.lookup name = Option.none) (scopeCount : b'.scopeCount = b.scopeCount + 1)
      (xid : b.symbolCount ≤ x.id) (symbolCount : b'.symbolCount = x.id + 1) :
      NewScopes b c b' [n]

/-- One frame gets a symbol with a new name, or one scope gets new scopes. -/
inductive Reshapes (b b' : Builder) : Prop
  | symbol {outer : Chain} {s : Scope} {x : Symbol} {name : String} {g : Frame → Frame}
      (place : b.top.Within outer s)
      (top : b'.top = b.top.update s.frame.id (Scope.modifyFrame g))
      (id : ∀ fr, (g fr).id = fr.id) (symbols : (g s.frame).symbols.Perm (x :: s.frame.symbols))
      (named : x.name = some name) (new : Chain.lookup (s.frame :: outer) name = none)
      (newInside : s.hasNameInside name = false) (xid : x.id = b.symbolCount)
      (scopeCount : b'.scopeCount = b.scopeCount) (symbolCount : b'.symbolCount = b.symbolCount + 1)
  | scopes {outer : Chain} {s : Scope} {f : Scope → Scope} {extra : List Scope}
      (place : b.top.Within outer s) (top : b'.top = b.top.update s.frame.id f)
      (frame : (f s).frame = s.frame) (children : (f s).children.Perm (s.children ++ extra))
      (new : b.NewScopes (s.frame :: outer) b' extra)

theorem Adds.top_eq {stmts : List (Stmt Scope)} (h : b.Adds F c stmts b') : b'.top = b.top := by
  cases h <;> rfl

theorem Grows.top_eq {old new : Stmt Scope} (h : b.Grows F c old new b') : b'.top = b.top := by
  cases h <;> rfl

theorem Adds.newScopes {stmts : List (Stmt Scope)} (h : b.Adds F c stmts b') :
    b.NewScopes c b' (stmts.flatMap Stmt.scopes) := by
  cases h with
  | conditional => exact .bare rfl rfl rfl rfl rfl
  | whileLoop => exact .bare rfl rfl rfl rfl rfl
  | doWhile => exact .bare rfl rfl rfl rfl rfl
  | iteration _ _ _ _ new => exact .named rfl rfl rfl rfl new rfl (Nat.le_succ _) rfl
  | attempt => exact .bare rfl rfl rfl rfl rfl
  | resource _ _ new => exact .named rfl rfl rfl rfl new rfl (Nat.le_refl _) rfl
  | _ => exact .none rfl rfl

/-- The bodies of groups do not change when a group gets another value. -/
theorem filterMap_body_modify {σ : Type} (groups : List (Arm (Option σ))) (k : Nat) (v : Expr) :
    (groups.modify k fun g => { g with values := g.values ++ [v] }).filterMap Arm.body =
      groups.filterMap Arm.body := by
  induction groups generalizing k with
  | nil => simp
  | cons g groups ih =>
    cases k with
    | zero =>
      show List.filterMap Arm.body ({ g with values := g.values ++ [v] } :: groups) = _
      rw [List.filterMap_cons, List.filterMap_cons]
    | succ k =>
      rw [List.modify_succ_cons, List.filterMap_cons, List.filterMap_cons, ih]

/-- A body for a group that had none comes in addition. -/
theorem filterMap_body_set {σ : Type} {groups : List (Arm (Option σ))} {k : Nat}
    {values : List Expr} (body : σ) (h : groups[k]? = some ⟨values, none⟩) :
    ((groups.set k ⟨values, some body⟩).filterMap Arm.body).Perm
      (groups.filterMap Arm.body ++ [body]) := by
  induction groups generalizing k with
  | nil => simp at h
  | cons g groups ih =>
    cases k with
    | zero =>
      obtain rfl : g = ⟨values, none⟩ := by simpa using h
      simpa using (List.perm_append_singleton body _).symm
    | succ k =>
      have hk := ih (k := k) (by simpa using h)
      rw [List.set_cons_succ, List.filterMap_cons, List.filterMap_cons]
      cases g.body with
      | none => exact hk
      | some d => exact hk.cons d

theorem scopes_handler_append {σ : Type} {body : σ} {handlers : List (Handler σ)}
    {cleanup : Option σ} (h : Handler σ) :
    (Stmt.attempt body (handlers ++ [h]) cleanup).scopes.Perm
      ((Stmt.attempt body handlers cleanup).scopes ++ [h.body]) := by
  rw [Stmt.scopes, Stmt.scopes, List.map_append, List.cons_append, List.append_assoc,
    List.append_assoc]
  exact (List.Perm.append_left _ List.perm_append_comm).cons body

/-- The construct after it has grown has the scopes that it had, and new ones without statements,
which are not the bodies of loops. -/
theorem Grows.newScopes {old new : Stmt Scope} (h : b.Grows F c old new b') :
    ∃ extra, b.NewScopes c b' extra ∧ new.scopes.Perm (old.scopes ++ extra) ∧
      ∀ n ∈ extra, n.stmts = [] ∧ n.frame.loopLabels? = none := by
  have vacant {n : Scope} (hstmts : n.stmts = []) (hrole : n.frame.loopLabels? = none) :
      ∀ m ∈ [n], m.stmts = [] ∧ m.frame.loopLabels? = none :=
    List.forall_mem_singleton.mpr ⟨hstmts, hrole⟩
  cases h with
  | @otherwise links =>
    refine ⟨[b.newScope .plain], .bare rfl rfl rfl rfl rfl, ?_, vacant rfl rfl⟩
    simp [Stmt.scopes]
  | @link links test =>
    refine ⟨[b.newScope .plain], .bare rfl rfl rfl rfl rfl, ?_, vacant rfl rfl⟩
    simp [Stmt.scopes]
  | @group discriminant groups default value =>
    refine ⟨[], .none rfl rfl, ?_, fun _ hn => absurd hn List.not_mem_nil⟩
    simp [Stmt.scopes]
  | @widen discriminant groups default value group =>
    refine ⟨[], .none rfl rfl, ?_, fun _ hn => absurd hn List.not_mem_nil⟩
    rw [Stmt.scopes, Stmt.scopes, filterMap_body_modify, List.append_nil]
  | @groupBody discriminant groups default values group place =>
    refine ⟨[b.newScope .plain], .bare rfl rfl rfl rfl rfl, ?_, vacant rfl rfl⟩
    rw [Stmt.scopes, Stmt.scopes]
    refine ((filterMap_body_set _ place).append_right _).trans ?_
    rw [List.append_assoc, List.append_assoc]
    exact List.Perm.append_left _ List.perm_append_comm
  | default =>
    refine ⟨[b.newScope .plain], .bare rfl rfl rfl rfl rfl, ?_, vacant rfl rfl⟩
    simp [Stmt.scopes]
  | @handler body handlers cleanup kind =>
    refine ⟨[b.newScope .catchBody], .bare rfl rfl rfl rfl rfl, ?_, vacant rfl rfl⟩
    exact scopes_handler_append _
  | @handlerWith body handlers cleanup kind name reference new =>
    refine ⟨[b.newScopeWith .catchBody name kind],
      .named rfl rfl rfl rfl new rfl (Nat.le_refl _) rfl, ?_, vacant rfl rfl⟩
    exact scopes_handler_append _
  | cleanup =>
    refine ⟨[b.newScope .plain], .bare rfl rfl rfl rfl rfl, ?_, vacant rfl rfl⟩
    simp [Stmt.scopes]

/-- A statement that takes the place of another one brings what it has in addition. -/
theorem flatMap_set_perm {α β : Type} {xs : List α} {f : α → List β} {k : Nat} {old new : α}
    {extra : List β} (standing : xs[k]? = some old) (h : (f new).Perm (f old ++ extra)) :
    ((xs.set k new).flatMap f).Perm (xs.flatMap f ++ extra) := by
  obtain ⟨hlt, rfl⟩ := List.getElem?_eq_some_iff.mp standing
  have hsplit : xs = xs.take k ++ xs[k] :: xs.drop (k + 1) := by
    rw [List.getElem_cons_drop, List.take_append_drop]
  rw [List.set_eq_take_append_cons_drop, if_pos hlt]
  conv_rhs => rw [hsplit]
  rw [List.flatMap_append, List.flatMap_append, List.flatMap_cons, List.flatMap_cons,
    List.append_assoc]
  refine List.Perm.append_left _ ((h.append_right _).trans ?_)
  rw [List.append_assoc, List.append_assoc]
  exact List.perm_append_comm.append_left _

theorem setStmt_children {s : Scope} {index : Nat} {old new : Stmt Scope} {extra : List Scope}
    (standing : s.stmts[index]? = some old) (h : new.scopes.Perm (old.scopes ++ extra)) :
    (setStmt index new s).children.Perm (s.children ++ extra) :=
  flatMap_set_perm standing h

theorem addStmts_children (stmts : List (Stmt Scope)) (s : Scope) :
    (addStmts stmts s).children = s.children ++ stmts.flatMap Stmt.scopes :=
  List.flatMap_append

/-- Statements that are added leave the scopes there in place. -/
theorem children_addStmts (stmts : List (Stmt Scope)) (s : Scope) :
    ∀ d ∈ s.children, d ∈ (addStmts stmts s).children := fun _ hd =>
  (addStmts_children stmts s).symm ▸ List.mem_append_left _ hd

/-- A construct that grows leaves the scopes there in place. -/
theorem Grows.keeps_children {old new : Stmt Scope} (h : b.Grows F c old new b') {s : Scope}
    {index : Nat} (standing : s.stmts[index]? = some old) :
    ∀ d ∈ s.children, d ∈ (setStmt index new s).children := by
  obtain ⟨extra, -, hperm, -⟩ := h.newScopes
  exact fun d hd => (setStmt_children standing hperm).mem_iff.mpr (List.mem_append_left _ hd)

theorem NewScopes.leaf {extra : List Scope} (h : b.NewScopes c b' extra) {n : Scope}
    (hn : n ∈ extra) : n.children = [] := by
  cases h with
  | none => exact absurd hn List.not_mem_nil
  | bare id leaf => exact List.mem_singleton.mp hn ▸ leaf
  | named id leaf => exact List.mem_singleton.mp hn ▸ leaf

/-- Only the counts of the builder matter to what is new. -/
theorem NewScopes.changing {extra : List Scope} (h : b.NewScopes c b' extra) (id : ScopeId)
    (f : Scope → Scope) : b.NewScopes c (b'.changing id f) extra := by
  cases h with
  | none scopeCount symbolCount => exact .none scopeCount symbolCount
  | bare id leaf symbols scopeCount symbolCount =>
    exact .bare id leaf symbols scopeCount symbolCount
  | named id leaf symbols xname new scopeCount xid symbolCount =>
    exact .named id leaf symbols xname new scopeCount xid symbolCount

theorem symbols_addLocal (fr : Frame) (x : Symbol) :
    (fr.addLocal x).symbols.Perm (x :: fr.symbols) := by
  rw [Frame.symbols, Frame.addLocal, List.append_assoc]
  exact List.perm_middle

theorem symbols_addImplicit (fr : Frame) (x : Symbol) :
    (fr.addImplicit x).symbols.Perm (x :: fr.symbols) := by
  rw [Frame.symbols, Frame.addImplicit, ← List.append_assoc]
  exact List.perm_append_singleton x _

/-- What an edit does to the tree. -/
theorem Edit.reshapes (h : b.Edit F b') : b.Reshapes b' := by
  cases h with
  | @param name ty new newInside =>
    exact .symbol (x := b.newSymbol 0 name ty) .here rfl (fun _ => rfl) (symbols_addImplicit _ _)
      rfl new newInside rfl rfl rfl
  | @declare outer s name ty place new newInside =>
    exact .symbol (x := b.newSymbol 0 name ty) place rfl (fun _ => rfl) (symbols_addLocal _ _)
      rfl new newInside rfl rfl rfl
  | @add outer s stmts b₁ place adds =>
    refine .scopes place ?_ rfl (List.Perm.of_eq (addStmts_children stmts s))
      (adds.newScopes.changing _ _)
    rw [changing, adds.top_eq]
  | @grow outer s index old new b₁ place standing grows =>
    obtain ⟨extra, hextra, hperm, -⟩ := grows.newScopes
    refine .scopes place ?_ rfl (setStmt_children standing hperm) (hextra.changing _ _)
    rw [changing, grows.top_eq]

/-! ## Numbers -/

/-- All symbols that scopes of the tree own. -/
def owned (b : Builder) : List Symbol :=
  b.top.frames.flatMap Frame.symbols

/-- Scopes and symbols are told apart by numbers that are given out already. -/
structure Numbered (b : Builder) : Prop where
  distinct : b.top.Distinct
  id_lt : ∀ id ∈ b.top.ids, id < b.scopeCount
  symbols : (b.owned.map Symbol.id).Nodup
  symbol_lt : ∀ x ∈ b.owned, x.id < b.symbolCount

/-- A symbol for the frame with one of distinct numbers is a symbol more. -/
theorem flatMap_symbols_perm {frames : List Frame} {fr : Frame} {g : Frame → Frame} {x : Symbol}
    (hdistinct : (frames.map Frame.id).Nodup) (hmem : fr ∈ frames)
    (hg : (g fr).symbols.Perm (x :: fr.symbols)) :
    ((frames.map fun a => if a.id = fr.id then g a else a).flatMap Frame.symbols).Perm
      (x :: frames.flatMap Frame.symbols) := by
  obtain ⟨l, r, rfl⟩ := List.append_of_mem hmem
  rw [List.map_append, List.map_cons, List.nodup_append, List.nodup_cons] at hdistinct
  obtain ⟨-, ⟨hr, -⟩, hl⟩ := hdistinct
  have same : ∀ k : List Frame, fr.id ∉ k.map Frame.id →
      (k.map fun a => if a.id = fr.id then g a else a) = k := by
    intro k hk
    refine (List.map_congr_left fun a ha => if_neg fun e => hk ?_).trans (List.map_id k)
    exact e ▸ List.mem_map_of_mem ha
  have hl' : fr.id ∉ l.map Frame.id := fun h => hl _ h _ List.mem_cons_self rfl
  rw [List.map_append, List.map_cons, same l hl', same r hr, if_pos rfl, List.flatMap_append,
    List.flatMap_append, List.flatMap_cons, List.flatMap_cons]
  refine (List.Perm.append_left _ (hg.append_right _)).trans ?_
  exact List.perm_middle

/-- A scope that gets new ones has their frames in addition. -/
theorem frames_perm {s s' : Scope} {extra : List Scope} (frame : s'.frame = s.frame)
    (children : s'.children.Perm (s.children ++ extra)) :
    s'.frames.Perm (s.frames ++ extra.flatMap Scope.frames) := by
  rw [Scope.frames_eq, Scope.frames_eq s, frame, List.cons_append, ← List.flatMap_append]
  exact (children.flatMap_right _).cons _

theorem frames_leaf {n : Scope} (h : n.children = []) : n.frames = [n.frame] := by
  rw [Scope.frames_eq, h]; rfl

/-- What the new scopes bring: frames with the next numbers, and symbols with the next numbers. -/
theorem NewScopes.fresh {extra : List Scope} (h : b.NewScopes c b' extra) :
    ((extra.flatMap Scope.frames).map Frame.id).Nodup ∧
      (∀ fr ∈ extra.flatMap Scope.frames, b.scopeCount ≤ fr.id ∧ fr.id < b'.scopeCount) ∧
      b.scopeCount ≤ b'.scopeCount ∧
      (((extra.flatMap Scope.frames).flatMap Frame.symbols).map Symbol.id).Nodup ∧
      (∀ x ∈ (extra.flatMap Scope.frames).flatMap Frame.symbols,
        b.symbolCount ≤ x.id ∧ x.id < b'.symbolCount) ∧
      b.symbolCount ≤ b'.symbolCount := by
  cases h with
  | none scopeCount symbolCount => simp [scopeCount, symbolCount]
  | bare id leaf symbols scopeCount symbolCount =>
    simp [frames_leaf leaf, id, symbols, scopeCount, symbolCount]
  | named id leaf symbols xname new scopeCount xid symbolCount =>
    simp [frames_leaf leaf, id, symbols, scopeCount, symbolCount, xid]
    omega

/-- The frames after new scopes came in are the old ones and theirs. -/
theorem Numbered.frames_perm_of_scopes {outer : Chain} {s : Scope} {f : Scope → Scope}
    {extra : List Scope} (hb : b.Numbered) (place : b.top.Within outer s)
    (top : b'.top = b.top.update s.frame.id f) (frame : (f s).frame = s.frame)
    (children : (f s).children.Perm (s.children ++ extra)) :
    b'.top.frames.Perm (b.top.frames ++ extra.flatMap Scope.frames) := by
  rw [top]
  exact Scope.gathers_frames.update hb.distinct place rfl (frames_perm frame children)

/-- The symbols after one came into a scope are the old ones and it. -/
theorem Numbered.owned_perm_of_symbol {outer : Chain} {s : Scope} {g : Frame → Frame} {x : Symbol}
    (hb : b.Numbered) (place : b.top.Within outer s)
    (top : b'.top = b.top.update s.frame.id (Scope.modifyFrame g))
    (symbols : (g s.frame).symbols.Perm (x :: s.frame.symbols)) :
    b'.owned.Perm (x :: b.owned) := by
  rw [owned, top, Scope.frames_modifyFrame]
  exact flatMap_symbols_perm hb.distinct place.frame_mem symbols

theorem Numbered.owned_perm_of_scopes {outer : Chain} {s : Scope} {f : Scope → Scope}
    {extra : List Scope} (hb : b.Numbered) (place : b.top.Within outer s)
    (top : b'.top = b.top.update s.frame.id f) (frame : (f s).frame = s.frame)
    (children : (f s).children.Perm (s.children ++ extra)) :
    b'.owned.Perm (b.owned ++ (extra.flatMap Scope.frames).flatMap Frame.symbols) := by
  rw [owned, owned, ← List.flatMap_append]
  exact (hb.frames_perm_of_scopes place top frame children).flatMap_right _

theorem Reshapes.numbered (h : b.Reshapes b') (hb : b.Numbered) : b'.Numbered := by
  cases h with
  | @symbol outer s x name g place top id symbols named new newInside xid scopeCount symbolCount =>
    have hids : b'.top.ids = b.top.ids := by
      rw [Scope.ids, Scope.ids, top, Scope.frames_modifyFrame, List.map_map]
      refine List.map_congr_left fun fr _ => ?_
      rw [Function.comp_apply]
      split
      · exact id fr
      · rfl
    have howned := hb.owned_perm_of_symbol place top symbols
    constructor
    · rw [Scope.Distinct, hids]
      exact hb.distinct
    · rw [hids, scopeCount]
      exact hb.id_lt
    · refine (howned.map Symbol.id).nodup_iff.mpr (List.nodup_cons.mpr ⟨fun hx => ?_, hb.symbols⟩)
      obtain ⟨y, hy, hyx⟩ := List.mem_map.mp hx
      exact absurd (hyx.trans xid) (Nat.ne_of_lt (hb.symbol_lt y hy))
    · intro y hy
      rw [symbolCount]
      rcases List.mem_cons.mp (howned.mem_iff.mp hy) with rfl | hy
      · rw [xid]
        exact Nat.lt_succ_self _
      · exact Nat.lt_succ_of_lt (hb.symbol_lt y hy)
  | @scopes outer s f extra place top frame children new =>
    obtain ⟨hids, hidlt, hscopes, hsymbols, hsymlt, hcount⟩ := new.fresh
    have hframes := hb.frames_perm_of_scopes place top frame children
    have howned := hb.owned_perm_of_scopes place top frame children
    constructor
    · refine (hframes.map Frame.id).nodup_iff.mpr ?_
      rw [List.map_append, List.nodup_append]
      refine ⟨hb.distinct, hids, fun i hi j hj => ?_⟩
      obtain ⟨fr, hfr, rfl⟩ := List.mem_map.mp hj
      exact Nat.ne_of_lt (Nat.lt_of_lt_of_le (hb.id_lt i hi) (hidlt fr hfr).1)
    · intro i hi
      have hi := (hframes.map Frame.id).mem_iff.mp hi
      rw [List.map_append, List.mem_append] at hi
      rcases hi with hi | hi
      · exact Nat.lt_of_lt_of_le (hb.id_lt i hi) hscopes
      · obtain ⟨fr, hfr, rfl⟩ := List.mem_map.mp hi
        exact (hidlt fr hfr).2
    · refine (howned.map Symbol.id).nodup_iff.mpr ?_
      rw [List.map_append, List.nodup_append]
      refine ⟨hb.symbols, hsymbols, fun i hi j hj => ?_⟩
      obtain ⟨x, hx, rfl⟩ := List.mem_map.mp hi
      obtain ⟨y, hy, rfl⟩ := List.mem_map.mp hj
      exact Nat.ne_of_lt (Nat.lt_of_lt_of_le (hb.symbol_lt x hx) (hsymlt y hy).1)
    · intro x hx
      rcases List.mem_append.mp (howned.mem_iff.mp hx) with hx | hx
      · exact Nat.lt_of_lt_of_le (hb.symbol_lt x hx) hcount
      · exact (hsymlt x hx).2

theorem numbered_empty (options : Options) (returnType : Ty) :
    (Builder.empty options returnType).Numbered := by
  have hframes : (Builder.empty options returnType).top.frames = [⟨topId, .plain, [], []⟩] :=
    Scope.frames_eq _
  constructor
  · rw [Scope.Distinct, Scope.ids, hframes]
    exact List.nodup_singleton _
  · rw [Scope.ids, hframes]
    intro id hid
    obtain rfl := List.mem_singleton.mp hid
    exact Nat.zero_lt_one
  · rw [owned, hframes]
    exact List.nodup_nil
  · rw [owned, hframes]
    intro x hx
    simp [Frame.symbols] at hx

theorem Built.numbered (h : Built F b) : b.Numbered := by
  induction h with
  | empty options returnType => exact numbered_empty options returnType
  | edit _ edit ih => exact edit.reshapes.numbered ih

/-- The number of the outermost scope does not change. -/
theorem Built.top_id (h : Built F b) : b.top.frame.id = topId := by
  induction h with
  | empty => rfl
  | @edit b b' built edit ih =>
    rw [← ih]
    cases edit.reshapes with
    | @symbol outer s x name g place top id =>
      rw [top, Scope.update_eq]
      split
      · exact id _
      · rfl
    | @scopes outer s f extra place top frame =>
      rw [top]
      by_cases hid : b.top.frame.id = s.frame.id
      · obtain ⟨-, hs⟩ := place.unique built.numbered.distinct .here hid.symm
        rw [built.numbered.distinct.update_eq hid, ← hs, frame]
      · rw [Scope.frame_update_of_ne hid]

end Builder

end StructuredFlow
