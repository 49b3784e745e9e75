import StructuredFlow.Script
import StructuredFlow.Proofs.Outcome

/-
  Operations of a builder, read from their outcome: for each part that operations are made of, when
  it succeeds and what it gives then (`…_ok`), and when it is refused (`…_error`).
-/

namespace StructuredFlow

namespace Build

open Outcome

variable {α β : Type} {b b' : Builder} {e : BuildError}

/-! ## Parts of operations -/

@[simp] theorem chain_ok {id : ScopeId} {c : Chain} :
    chain id b = .ok c b' ↔ b.top.chain? id = some c ∧ b' = b := by
  rw [chain, get_andThen]
  cases b.top.chain? id with
  | none => simp
  | some k => rw [pure_ok, Option.some.injEq, eq_comm]

@[simp] theorem chain_error {id : ScopeId} :
    chain id b = .error e b' ↔ b.top.chain? id = none ∧ e = .unknownScope id ∧ b' = b := by
  rw [chain, get_andThen]
  cases b.top.chain? id <;> simp

@[simp] theorem makeScope_ok {role : ScopeRole} {s : Scope} :
    makeScope role b = .ok s b' ↔
      s = Scope.new b.scopeCount role ∧ b' = { b with scopeCount := b.scopeCount + 1 } :=
  modifyGet_ok

@[simp] theorem makeScope_error {role : ScopeRole} : makeScope role b = .error e b' ↔ False :=
  modifyGet_error

@[simp] theorem makeSymbol_ok {name : Option String} {ty : Ty} {s : Symbol} :
    makeSymbol name ty b = .ok s b' ↔
      s = ⟨b.symbolCount, name, ty⟩ ∧ b' = { b with symbolCount := b.symbolCount + 1 } :=
  modifyGet_ok

@[simp] theorem makeSymbol_error {name : Option String} {ty : Ty} :
    makeSymbol name ty b = .error e b' ↔ False :=
  modifyGet_error

@[simp] theorem makeLabelId_ok {l : LabelId} :
    makeLabelId b = .ok l b' ↔
      l = b.labelCount ∧ b' = { b with labelCount := b.labelCount + 1 } :=
  modifyGet_ok

@[simp] theorem makeLabelId_error : makeLabelId b = .error e b' ↔ False :=
  modifyGet_error

@[simp] theorem makeLabel_ok {l : Label} :
    makeLabel b = .ok l b' ↔
      l = Label.internal b.labelCount ∧ b' = { b with labelCount := b.labelCount + 1 } := by
  simp only [makeLabel, andThen_ok, makeLabelId_ok, pure_ok]
  constructor
  · rintro ⟨_, _, ⟨rfl, rfl⟩, rfl, rfl⟩; exact ⟨rfl, rfl⟩
  · rintro ⟨rfl, rfl⟩; exact ⟨_, _, ⟨rfl, rfl⟩, rfl, rfl⟩

@[simp] theorem makeLabel_error : makeLabel b = .error e b' ↔ False := by
  simp [makeLabel]

@[simp] theorem updateScope_ok {id : ScopeId} {f : Scope → Scope} {u : Unit} :
    updateScope id f b = .ok u b' ↔ b' = { b with top := b.top.update id f } :=
  modify_ok

@[simp] theorem updateScope_error {id : ScopeId} {f : Scope → Scope} :
    updateScope id f b = .error e b' ↔ False :=
  modify_error

@[simp] theorem push_ok {id : ScopeId} {stmt : Stmt Scope} {u : Unit} :
    push id stmt b = .ok u b' ↔ b' = { b with top := b.top.update id (·.push stmt) } :=
  updateScope_ok

@[simp] theorem push_error {id : ScopeId} {stmt : Stmt Scope} :
    push id stmt b = .error e b' ↔ False :=
  updateScope_error

@[simp] theorem pushNode_ok {id : ScopeId} {n : Node} {u : Unit} :
    pushNode id n b = .ok u b' ↔ b' = { b with top := b.top.update id (·.push (.node n)) } :=
  push_ok

@[simp] theorem pushNode_error {id : ScopeId} {n : Node} : pushNode id n b = .error e b' ↔ False :=
  push_error

@[simp] theorem pushConstruct_ok {id : ScopeId} {stmt : Stmt Scope} {site : Site} :
    pushConstruct id stmt b = .ok site b' ↔
      ∃ s, b.top.find? id = some s ∧ site = ⟨id, s.stmts.length⟩ ∧
        b' = { b with top := b.top.update id (·.push stmt) } := by
  rw [pushConstruct, get_andThen]
  cases b.top.find? id <;> simp [and_comm]

@[simp] theorem pushConstruct_error {id : ScopeId} {stmt : Stmt Scope} :
    pushConstruct id stmt b = .error e b' ↔
      b.top.find? id = none ∧ e = .unknownScope id ∧ b' = b := by
  rw [pushConstruct, get_andThen]
  cases b.top.find? id <;> simp

@[simp] theorem construct?_ok {site : Site} {stmt : Option (Stmt Scope)} :
    construct? site b = .ok stmt b' ↔
      stmt = (b.top.find? site.scope).bind (·.stmts[site.index]?) ∧ b' = b :=
  pure_ok

@[simp] theorem construct?_error {site : Site} : construct? site b = .error e b' ↔ False :=
  pure_error

@[simp] theorem replaceConstruct_ok {site : Site} {stmt : Stmt Scope} {u : Unit} :
    replaceConstruct site stmt b = .ok u b' ↔
      b' = { b with
        top := b.top.update site.scope fun s => { s with stmts := s.stmts.set site.index stmt } } :=
  updateScope_ok

@[simp] theorem replaceConstruct_error {site : Site} {stmt : Stmt Scope} :
    replaceConstruct site stmt b = .error e b' ↔ False :=
  updateScope_error

/-! ## Names and types -/

@[simp] theorem isTaken_ok {id : ScopeId} {name : String} {taken : Bool} :
    isTaken id name b = .ok taken b' ↔
      ∃ c, b.top.chain? id = some c ∧
        taken = ((c.lookup name).isSome || (b.top.find? id).any (·.hasNameInside name)) ∧
        b' = b := by
  simp only [isTaken, andThen_ok, chain_ok, get_ok, pure_ok]
  constructor
  · rintro ⟨c, _, ⟨hc, rfl⟩, _, _, ⟨rfl, rfl⟩, ht, rfl⟩; exact ⟨c, hc, ht, rfl⟩
  · rintro ⟨c, hc, ht, rfl⟩; exact ⟨c, _, ⟨hc, rfl⟩, _, _, ⟨rfl, rfl⟩, ht, rfl⟩

@[simp] theorem isTaken_error {id : ScopeId} {name : String} :
    isTaken id name b = .error e b' ↔ b.top.chain? id = none ∧ e = .unknownScope id ∧ b' = b := by
  simp [isTaken]

@[simp] theorem requireFree_ok {id : ScopeId} {name : String} {cause : BuildError} {u : Unit} :
    requireFree id name cause b = .ok u b' ↔
      ∃ c, b.top.chain? id = some c ∧ c.lookup name = none ∧ b' = b := by
  simp [requireFree, and_assoc]

@[simp] theorem resolve_ok {id : ScopeId} {f : Fragment} {r : Expr} :
    resolve id f b = .ok r b' ↔
      (∃ c, b.top.chain? id = some c) ∧ f.resolveIn (b.context id) = .ok r ∧ b' = b := by
  simp only [resolve, andThen_ok, chain_ok, get_ok, ofExcept_ok]
  constructor
  · rintro ⟨c, _, ⟨hc, rfl⟩, _, _, ⟨rfl, rfl⟩, hr, rfl⟩; exact ⟨⟨c, hc⟩, hr, rfl⟩
  · rintro ⟨⟨c, hc⟩, hr, rfl⟩; exact ⟨c, _, ⟨hc, rfl⟩, _, _, ⟨rfl, rfl⟩, hr, rfl⟩

/-- A place of the type takes the value: null where there are references, else what the type
accepts. -/
def Suits (expected : Ty) (e : Expr) : Prop :=
  e.isNull = true ∧ expected.isReference = true ∨ expected.accepts e.type = true

@[simp] theorem requireType_ok {expected : Ty} {v : Expr} {u : Unit} :
    requireType expected v b = .ok u b' ↔ Suits expected v ∧ b' = b := by
  simp [requireType, Suits]

/-- The name is new along the chain and inside of the scope that the chain starts from. -/
@[simp] theorem bind_ok {id : ScopeId} {name : String} {ty : Ty} {add : Frame → Symbol → Frame}
    {s : Symbol} :
    bind id name ty add b = .ok s b' ↔
      ∃ c, b.top.chain? id = some c ∧ c.lookup name = none ∧
        (b.top.find? id).any (·.hasNameInside name) = false ∧ s = ⟨b.symbolCount, name, ty⟩ ∧
        b' = { b with
          symbolCount := b.symbolCount + 1
          top := b.top.update id (·.modifyFrame (add · s)) } := by
  simp only [bind, andThen_ok, isTaken_ok, ite_run, throw_ok, makeSymbol_ok, updateScope_ok,
    pure_ok, false_and, exists_const, and_false, false_or, Bool.not_eq_true]
  constructor
  · rintro ⟨_, _, ⟨c, hc, rfl, rfl⟩, ht, _, _, ⟨rfl, rfl⟩, _, rfl, rfl, rfl⟩
    rw [Bool.or_eq_false_iff, Option.isSome_eq_false_iff, Option.isNone_iff_eq_none] at ht
    exact ⟨c, hc, ht.1, ht.2, rfl, rfl⟩
  · rintro ⟨c, hc, hn, hb, rfl, rfl⟩
    exact ⟨_, _, ⟨c, hc, rfl, rfl⟩, by simp [hn, hb], _, _, ⟨rfl, rfl⟩, _, rfl, rfl, rfl⟩

@[simp] theorem bindNew_ok {id : ScopeId} {scope : Scope} {name : String} {ty : Ty}
    {add : Frame → Symbol → Frame} {r : Symbol × Scope} :
    bindNew id scope name ty add b = .ok r b' ↔
      ∃ c, b.top.chain? id = some c ∧ Chain.lookup (scope.frame :: c) name = none ∧
        scope.hasNameInside name = false ∧
        r = (⟨b.symbolCount, name, ty⟩,
          scope.modifyFrame (add · ⟨b.symbolCount, name, ty⟩)) ∧
        b' = { b with symbolCount := b.symbolCount + 1 } := by
  simp only [bindNew, andThen_ok, chain_ok, ite_run, throw_ok, makeSymbol_ok, pure_ok, false_and,
    exists_const, and_false, false_or, Bool.not_eq_true, Bool.or_eq_false_iff,
    Option.isSome_eq_false_iff, Option.isNone_iff_eq_none]
  constructor
  · rintro ⟨c, _, ⟨hc, rfl⟩, ⟨hn, hin⟩, _, _, ⟨rfl, rfl⟩, rfl, rfl⟩
    exact ⟨c, hc, hn, hin, rfl, rfl⟩
  · rintro ⟨c, hc, hn, hin, rfl, rfl⟩
    exact ⟨c, _, ⟨hc, rfl⟩, ⟨hn, hin⟩, _, _, ⟨rfl, rfl⟩, rfl, rfl⟩

end Build

end StructuredFlow
