import StructuredFlow.Proofs.BuilderFits
import StructuredFlow.Proofs.NodeTree

/-
  What a program tells. A node by itself tells a few things, its clauses: it reads an expression,
  assigns to a variable, binds variables, catches exceptions, or carries a value along a jump
  (`Node.tells`). A statement under construction tells the clauses of the nodes that it will become,
  apart from those of its scopes (`Stmt.tells`); so all that is told can be listed before a program is
  assembled (`Scope.clauses`). An edit adds to the list, and `Builder.Tells` has all that it can add
  (`Builder.Edit.tells`).
-/

namespace StructuredFlow

/-- One thing that a node tells by itself. -/
inductive Clause where
  | reads (e : Expr)
  | assigns (target : Symbol) (value : Expr)
  | binds (s : Symbol)
  | catches (kind : Ty) (binding : Option Symbol)
  | carries (target : Label) (value : Expr)
  | defaults (target : Label) (value : Constant)

namespace Clause

/-- The expression that is evaluated. -/
def expr? : Clause → Option Expr
  | reads e | assigns _ e | carries _ e => some e
  | binds _ | catches _ _ | defaults _ _ => none

/-- The variables that come into being. -/
def binders : Clause → List Symbol
  | binds s => [s]
  | catches _ binding => binding.toList
  | reads _ | assigns _ _ | carries _ _ | defaults _ _ => []

/-- The numbers of the variables that are read or assigned. -/
def mentions : Clause → List SymbolId
  | assigns target value => target.id :: value.vars.map Symbol.id
  | reads e | carries _ e => e.vars.map Symbol.id
  | binds _ | catches _ _ | defaults _ _ => []

end Clause

namespace Node

/-- What a node tells by itself. -/
def tells : Node → List Clause
  | eval e | throw e | branch e _ _ => [.reads e]
  | assign target value => [.assigns target value]
  | block locals _ => locals.map .binds
  | goto target (some value) => [.carries target value]
  | label target (some value) => [.defaults target value]
  | switch value arms _ => .reads value :: (arms.flatMap Arm.values).map .reads
  | attempt _ handlers _ => handlers.map fun h => .catches h.kind h.binding
  | nop | loop _ _ _ | goto _ none | label _ none | rethrow => []

/-- What is told in a tree of nodes. -/
def clauses (n : Node) : List Clause :=
  n.subnodes.flatMap tells

theorem clauses_eq (n : Node) : n.clauses = n.tells ++ n.children.flatMap clauses := by
  rw [clauses, subnodes_eq, List.flatMap_cons, List.flatMap_assoc]
  rfl

variable {n : Node}

/-- A variable is read or assigned by the node itself. -/
def Mentions (n : Node) (id : SymbolId) : Prop :=
  (∃ e ∈ n.reads, ∃ s ∈ e.vars, s.id = id) ∨
    ∃ target value, n = .assign target value ∧ target.id = id

theorem mentions_iff {id : SymbolId} : n.Mentions id ↔ id ∈ n.tells.flatMap Clause.mentions := by
  cases n with
  | switch value arms default =>
    simp [Mentions, reads, tells, Clause.mentions, List.flatMap_map]
  | goto target value => cases value <;> simp [Mentions, reads, tells, Clause.mentions]
  | label target value => cases value <;> simp [Mentions, reads, tells, Clause.mentions]
  | attempt body handlers cleanup =>
    simp [Mentions, reads, tells, Clause.mentions, List.flatMap_map]
  | block locals body => simp [Mentions, reads, tells, Clause.mentions, List.flatMap_map]
  | assign target value =>
    simp only [Mentions, reads, tells, Clause.mentions, List.flatMap_singleton, List.mem_cons,
      List.mem_map, List.not_mem_nil, or_false, exists_eq_left]
    rw [or_comm]
    refine or_congr_left ⟨?_, ?_⟩
    · rintro ⟨_, _, h, rfl⟩
      cases h
      rfl
    · rintro rfl
      exact ⟨_, _, rfl, rfl⟩
  | _ => simp [Mentions, reads, tells, Clause.mentions]

end Node

namespace Stmt

variable {σ τ : Type}

/-- What a statement tells, apart from its scopes. -/
def tells : Stmt σ → List Clause
  | node n => n.clauses
  | goto _ => []
  | conditional links _ => links.map fun l => .reads l.1
  | loop l _ => [.reads l.condition]
  | iteration iterator collection l _ =>
    .binds iterator :: .assigns iterator (.intrinsic .getIterator [collection]) ::
      ((if iterator.ty.isDisposable then (Node.disposal iterator).clauses else []) ++
        [.reads l.condition])
  | switch value groups _ => .reads value :: (groups.flatMap Arm.values).map .reads
  | attempt _ handlers _ => handlers.map fun h => .catches h.kind h.binding
  | resource symbol producer _ =>
    .binds symbol :: .assigns symbol producer :: (Node.disposal symbol).clauses

theorem tells_map (f : σ → τ) (stmt : Stmt σ) : (stmt.map f).tells = stmt.tells := by
  cases stmt with
  | conditional links otherwise => simp [map, tells, Function.comp_def]
  | switch value groups default => simp [map, tells, List.flatMap_map]
  | attempt body handlers cleanup => simp [map, tells, Function.comp_def]
  | _ => rfl

end Stmt

namespace Scope

/-- What a scope tells, apart from the scopes in it. -/
def tells (s : Scope) : List Clause :=
  s.frame.locals.map .binds ++ s.stmts.flatMap Stmt.tells

/-- What is told in a tree of scopes. -/
def clauses (s : Scope) : List Clause :=
  s.subscopes.flatMap tells

/-- What each scope has of its own can be gathered from all scopes of a tree. -/
theorem gathers_subscopes {α : Type} {own : Scope → List α}
    (hown : ∀ (s : Scope) (g : Scope → Scope), own ⟨s.frame, s.stmts.map (Stmt.map g)⟩ = own s) :
    Gathers own fun s => s.subscopes.flatMap own where
  total_eq s := by
    rw [subscopes_eq, List.flatMap_cons, List.flatMap_assoc]
  own_map := hown

theorem gathers_clauses : Gathers tells clauses :=
  gathers_subscopes fun s g => by
    rw [tells, tells, List.flatMap_map, List.flatMap_congr fun stmt _ => Stmt.tells_map g stmt]

theorem clauses_eq (s : Scope) : s.clauses = s.tells ++ s.children.flatMap clauses :=
  gathers_clauses.total_eq s

end Scope

namespace Builder

variable {F : Fragment → Prop} {b b' : Builder} {c : Chain}

/-- What an edit in a scope with the given chain can tell: the parameters that it adds, the symbols
that come into frames, how many numbers of symbols it takes, and its clauses. -/
inductive Tells (F : Fragment → Prop) (b : Builder) (c : Chain) :
    List Symbol → List Symbol → Nat → List Clause → Prop
  | nothing : Tells F b c [] [] 0 []
  | param (name : String) (ty : Ty) :
      Tells F b c [b.newSymbol 0 name ty] [b.newSymbol 0 name ty] 1 []
  | declare (name : String) (ty : Ty) :
      Tells F b c [] [b.newSymbol 0 name ty] 1 [.binds (b.newSymbol 0 name ty)]
  | reads {e} (settled : b.Settles F c e) : Tells F b c [] [] 0 [.reads e]
  | assign {name target value} (visible : c.lookup name = some target)
      (settled : b.Settles F c value) (suits : Build.Suits target.ty value) :
      Tells F b c [] [] 0 [.assigns target value]
  | returnValue {value} (settled : b.Settles F c value)
      (suits : value.isNull = true ∧ b.returnType.isReference = true ∨ value.type = b.returnType) :
      Tells F b c [] [] 0 [.carries b.returnLabel value]
  | iteration {collection iteratorType element} (name : String) {ty : Ty}
      (settled : b.Settles F c collection)
      (iterable : collection.type.iteratorType? = some iteratorType)
      (yields : iteratorType.elementType? = some element) (converts : element.convertsTo ty = true) :
      Tells F b c [] [b.newSymbol 1 name ty] 2
        (Stmt.tells (.iteration (b.newIterator iteratorType) collection
          (b.newLoop (.intrinsic .moveNext [.var (b.newIterator iteratorType)])) ()) ++
        [.binds (b.newSymbol 1 name ty),
          .assigns (b.newSymbol 1 name ty) (currentOf (b.newIterator iteratorType) element ty)])
  | resource {ty producer} (name : String) (settled : b.Settles F c producer)
      (suits : Build.Suits ty producer) :
      Tells F b c [] [b.newSymbol 0 name ty] 1
        (Stmt.tells (.resource (b.newSymbol 0 name ty) producer ()))
  | handler {kind} (reference : kind.isReference = true) : Tells F b c [] [] 0 [.catches kind none]
  | handlerWith {kind} (name : String) (reference : kind.isReference = true) :
      Tells F b c [] [b.newSymbol 0 name kind] 1 [.catches kind (some (b.newSymbol 0 name kind))]

/-- What the statements of an operation tell, with the symbols in their scopes. -/
theorem Adds.tells {stmts : List (Stmt Scope)} (h : b.Adds F c stmts b') :
    ∃ n, b.Tells F c [] (((stmts.flatMap Stmt.scopes).flatMap Scope.frames).flatMap Frame.symbols) n
        (stmts.flatMap Stmt.tells ++ (stmts.flatMap Stmt.scopes).flatMap Scope.clauses) ∧
      b'.symbolCount = b.symbolCount + n := by
  cases h with
  | assign visible settled suits => exact ⟨0, .assign visible settled suits, rfl⟩
  | act settled => exact ⟨0, .reads settled, rfl⟩
  | returnValue settled suits => exact ⟨0, .returnValue settled suits, rfl⟩
  | throw settled => exact ⟨0, .reads settled, rfl⟩
  | conditional settled => exact ⟨0, .reads settled, rfl⟩
  | whileLoop settled => exact ⟨0, .reads settled, rfl⟩
  | doWhile settled => exact ⟨0, .reads settled, rfl⟩
  | @iteration collection name iteratorType element ty settled iterable yields converts new =>
    refine ⟨2, ?_, rfl⟩
    have hiteration := Tells.iteration name settled iterable yields converts
    rw [← List.append_nil (Stmt.tells _)] at hiteration
    exact hiteration
  | switch settled => exact ⟨0, .reads settled, rfl⟩
  | @resource name ty producer settled suits new =>
    refine ⟨1, ?_, rfl⟩
    have hresource := Tells.resource name settled suits
    rw [← List.append_nil (Stmt.tells _), ← List.append_nil (_ ++ [])] at hresource
    exact hresource
  | _ => exact ⟨0, .nothing, rfl⟩

/-- A group that gets another value has it in addition; there is none if the group is missing. -/
theorem flatMap_values_modify {σ : Type} (groups : List (Arm (Option σ))) (k : Nat) (v : Expr) :
    ((groups.modify k fun g => { g with values := g.values ++ [v] }).flatMap Arm.values).Perm
      (groups.flatMap Arm.values ++ if k < groups.length then [v] else []) := by
  induction groups generalizing k with
  | nil => simp
  | cons g groups ih =>
    cases k with
    | zero =>
      rw [if_pos (List.length_pos_of_mem List.mem_cons_self)]
      show ((g.values ++ [v]) ++ groups.flatMap Arm.values).Perm
        ((g.values ++ groups.flatMap Arm.values) ++ [v])
      rw [List.append_assoc, List.append_assoc]
      exact List.perm_append_comm.append_left _
    | succ k =>
      have hlength : (k + 1 < (g :: groups).length) = (k < groups.length) := by simp
      rw [List.modify_succ_cons, List.flatMap_cons, List.flatMap_cons, List.append_assoc]
      simp only [hlength]
      exact (ih k).append_left _

theorem flatMap_values_set {σ : Type} {groups : List (Arm (Option σ))} {k : Nat}
    {values : List Expr} (body : Option σ) (h : groups[k]? = some ⟨values, none⟩) :
    (groups.set k ⟨values, body⟩).flatMap Arm.values = groups.flatMap Arm.values := by
  induction groups generalizing k with
  | nil => simp at h
  | cons g groups ih =>
    cases k with
    | zero =>
      obtain rfl : g = ⟨values, none⟩ := by simpa using h
      rfl
    | succ k =>
      rw [List.set_cons_succ, List.flatMap_cons, List.flatMap_cons, ih (by simpa using h)]

/-- What a construct tells in addition when it has grown, and the symbols in its new scopes, which
have no statements yet. -/
theorem Grows.tells {old new : Stmt Scope} (h : b.Grows F c old new b') :
    ∃ n scopes extra, b.Tells F c [] ((scopes.flatMap Scope.frames).flatMap Frame.symbols) n extra ∧
      b'.symbolCount = b.symbolCount + n ∧ new.scopes.Perm (old.scopes ++ scopes) ∧
      scopes.flatMap Scope.clauses = [] ∧ new.tells.Perm (old.tells ++ extra) := by
  have silent : ∀ (role : ScopeRole), [b.newScope role].flatMap Scope.clauses = [] := fun _ => rfl
  cases h with
  | otherwise | cleanup =>
    refine ⟨0, [b.newScope .plain], [], .nothing, rfl, ?_, silent _, ?_⟩
    · simp [Stmt.scopes]
    · exact .of_eq (List.append_nil _).symm
  | @link links test settled suits =>
    refine ⟨0, [b.newScope .plain], [.reads test], .reads settled, rfl, ?_, silent _, ?_⟩
    · simp [Stmt.scopes]
    · exact .of_eq List.map_append
  | @group discriminant groups default value settled suits =>
    refine ⟨0, [], [.reads value], .reads settled, rfl, ?_, rfl, ?_⟩
    · simp [Stmt.scopes]
    · simp [Stmt.tells]
  | @widen discriminant groups default value group settled suits =>
    have hscopes : (Stmt.switch discriminant (groups.modify group fun g =>
        { g with values := g.values ++ [value] }) default).scopes.Perm
          ((Stmt.switch discriminant groups default).scopes ++ []) := by
      rw [Stmt.scopes, Stmt.scopes, filterMap_body_modify, List.append_nil]
    have hvalues := (flatMap_values_modify groups group value).map Clause.reads
    by_cases hgroup : group < groups.length
    · refine ⟨0, [], [.reads value], .reads settled, rfl, hscopes, rfl, ?_⟩
      rw [if_pos hgroup, List.map_append] at hvalues
      exact hvalues.cons _
    · refine ⟨0, [], [], .nothing, rfl, hscopes, rfl, ?_⟩
      rw [if_neg hgroup, List.map_append] at hvalues
      exact hvalues.cons _
  | @groupBody discriminant groups default values group place =>
    refine ⟨0, [b.newScope .plain], [], .nothing, rfl, ?_, silent _, ?_⟩
    · rw [Stmt.scopes, Stmt.scopes]
      refine ((filterMap_body_set _ place).append_right _).trans ?_
      rw [List.append_assoc, List.append_assoc]
      exact List.Perm.append_left _ List.perm_append_comm
    · rw [Stmt.tells, Stmt.tells, flatMap_values_set _ place, List.append_nil]
  | default =>
    refine ⟨0, [b.newScope .plain], [], .nothing, rfl, ?_, silent _, ?_⟩
    · simp [Stmt.scopes]
    · exact .of_eq (List.append_nil _).symm
  | @handler body handlers cleanup kind reference =>
    refine ⟨0, [b.newScope .catchBody], _, .handler reference, rfl, scopes_handler_append _,
      silent _, ?_⟩
    exact .of_eq List.map_append
  | @handlerWith body handlers cleanup kind name reference new =>
    refine ⟨1, [b.newScopeWith .catchBody name kind], _, .handlerWith name reference, rfl,
      scopes_handler_append _, rfl, ?_⟩
    exact .of_eq List.map_append

theorem addStmts_clauses (stmts : List (Stmt Scope)) (s : Scope) :
    (addStmts stmts s).clauses.Perm
      (s.clauses ++
        (stmts.flatMap Stmt.tells ++ (stmts.flatMap Stmt.scopes).flatMap Scope.clauses)) := by
  rw [Scope.clauses_eq, Scope.clauses_eq s, addStmts_children, Scope.tells, Scope.tells, addStmts,
    List.flatMap_append, List.flatMap_append]
  simp only [List.append_assoc]
  refine (List.Perm.append_left _ (List.Perm.append_left _ ?_))
  rw [← List.append_assoc, ← List.append_assoc]
  exact List.perm_append_comm.append_right _

theorem setStmt_clauses {s : Scope} {index : Nat} {old new : Stmt Scope} {scopes : List Scope}
    {extra : List Clause} (standing : s.stmts[index]? = some old)
    (hscopes : new.scopes.Perm (old.scopes ++ scopes)) (hsilent : scopes.flatMap Scope.clauses = [])
    (htells : new.tells.Perm (old.tells ++ extra)) :
    (setStmt index new s).clauses.Perm (s.clauses ++ extra) := by
  have hchildren : ((setStmt index new s).children.flatMap Scope.clauses).Perm
      (s.children.flatMap Scope.clauses) := by
    refine ((setStmt_children standing hscopes).flatMap_right _).trans (.of_eq ?_)
    rw [List.flatMap_append, hsilent, List.append_nil]
  have hstmts : ((s.stmts.set index new).flatMap Stmt.tells).Perm
      (s.stmts.flatMap Stmt.tells ++ extra) := flatMap_set_perm standing htells
  rw [Scope.clauses_eq, Scope.clauses_eq s, Scope.tells, Scope.tells, List.append_assoc,
    List.append_assoc, List.append_assoc]
  refine List.Perm.append_left _ ((hstmts.append hchildren).trans ?_)
  rw [List.append_assoc]
  exact List.perm_append_comm.append_left _

theorem addLocal_clauses (x : Symbol) (s : Scope) :
    (addLocal x s).clauses.Perm (s.clauses ++ [.binds x]) := by
  have hchildren : (addLocal x s).children = s.children := rfl
  have htells : (addLocal x s).tells =
      s.frame.locals.map .binds ++ ([.binds x] ++ s.stmts.flatMap Stmt.tells) := by
    show (s.frame.locals ++ [x]).map Clause.binds ++ _ = _
    rw [List.map_append, List.append_assoc]
    rfl
  rw [Scope.clauses_eq, Scope.clauses_eq s, hchildren, htells, Scope.tells]
  simp only [List.append_assoc]
  refine List.Perm.append_left _ ?_
  rw [← List.append_assoc (List.flatMap Stmt.tells _)]
  exact List.perm_append_comm

theorem addImplicit_clauses (x : Symbol) (s : Scope) : (addImplicit x s).clauses = s.clauses := by
  rw [Scope.clauses_eq, Scope.clauses_eq s]
  rfl

/-- What an edit tells, and the parameters and symbols that it brings. -/
theorem Edit.tells (h : b.Edit F b') (hb : b.Numbered) :
    ∃ c params owned n extra, (∀ fr ∈ c, fr ∈ b.top.frames) ∧ b.Tells F c params owned n extra ∧
      b'.params = b.params ++ params ∧ b'.owned.Perm (b.owned ++ owned) ∧
      b'.symbolCount = b.symbolCount + n ∧ b'.top.clauses.Perm (b.top.clauses ++ extra) := by
  have hdistinct := hb.distinct
  cases h with
  | @param name ty new newInside =>
    refine ⟨[], _, _, _, _, nofun, .param name ty, rfl, ?_, rfl, ?_⟩
    · refine (hb.owned_perm_of_symbol .here rfl (symbols_addImplicit _ _)).trans ?_
      exact (List.perm_append_singleton _ _).symm
    · refine Scope.gathers_clauses.update hdistinct .here rfl (.of_eq ?_)
      rw [addImplicit_clauses, List.append_nil]
  | @declare outer s name ty place new newInside =>
    refine ⟨[], _, _, _, _, nofun, .declare name ty, (List.append_nil _).symm, ?_, rfl, ?_⟩
    · refine (hb.owned_perm_of_symbol place rfl (symbols_addLocal _ _)).trans ?_
      exact (List.perm_append_singleton _ _).symm
    · exact Scope.gathers_clauses.update hdistinct place rfl (addLocal_clauses _ s)
  | @add outer s stmts b₁ place adds =>
    obtain ⟨n, htells, hcount⟩ := adds.tells
    refine ⟨s.frame :: outer, _, _, n, _, fun fr => place.mem_frames, htells, ?_, ?_, hcount, ?_⟩
    · rw [List.append_nil]
      exact adds.alike.params
    · refine hb.owned_perm_of_scopes place ?_ rfl (.of_eq (addStmts_children stmts s))
      rw [changing, adds.top_eq]
    · rw [changing, adds.top_eq]
      exact Scope.gathers_clauses.update hdistinct place rfl (addStmts_clauses stmts s)
  | @grow outer s index old new b₁ place standing grows =>
    obtain ⟨n, scopes, extra, htells, hcount, hscopes, hsilent, hnew⟩ := grows.tells
    refine ⟨s.frame :: outer, _, _, n, extra, fun fr => place.mem_frames, htells, ?_, ?_, hcount,
      ?_⟩
    · rw [List.append_nil]
      exact grows.alike.params
    · refine hb.owned_perm_of_scopes place ?_ rfl (setStmt_children standing hscopes)
      rw [changing, grows.top_eq]
    · rw [changing, grows.top_eq]
      exact Scope.gathers_clauses.update hdistinct place rfl
        (setStmt_clauses standing hscopes hsilent hnew)

end Builder

end StructuredFlow
