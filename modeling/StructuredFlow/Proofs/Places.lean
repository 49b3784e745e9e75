import Mathlib.Data.List.Pairwise
import Mathlib.Data.List.Perm.Subperm
import StructuredFlow.Proofs.BuilderFits

/-
  The places of labels. A label has its place at the node that marks it or, for the two labels of a
  loop, at the loop; `Node.places` and `Scope.places` list all labels that have a place in a tree,
  each as often as it has one. The builder takes a new number for each label that it places, so no
  two labels with a place share a number (`Built.placed`), and a name is known exactly as long as a
  label of that name has a place.
-/

namespace StructuredFlow

/-- Where labels are told apart by their numbers, a number belongs to one of the things that have
labels. -/
theorem Label.eq_of_nodup {α : Type} {place : α → List Label} {xs : List α} {x y : α} {l m : Label}
    (h : ((xs.flatMap place).map Label.id).Nodup) (hx : x ∈ xs) (hy : y ∈ xs) (hl : l ∈ place x)
    (hm : m ∈ place y) (hid : l.id = m.id) : x = y := by
  rw [List.map_flatMap, List.nodup_flatMap] at h
  have : Std.Symm (Function.onFun List.Disjoint fun x => (place x).map Label.id) :=
    ⟨fun _ _ hd _ h h' => hd h' h⟩
  by_contra hne
  exact h.2.forall hx hy hne (List.mem_map_of_mem hl) (hid ▸ List.mem_map_of_mem hm)

namespace Node

/-- The labels that have a place at the node itself. -/
def place : Node → List Label
  | label target _ => [target]
  | loop _ leave next => [leave, next]
  | _ => []

/-- The labels that have a place in the tree. -/
def places (n : Node) : List Label :=
  n.subnodes.flatMap place

theorem places_eq (n : Node) : n.places = n.place ++ n.children.flatMap places := by
  rw [places, subnodes_eq, List.flatMap_cons, List.flatMap_assoc]
  rfl

end Node

namespace Stmt

variable {σ τ : Type}

/-- The labels that a statement places, apart from those in its scopes. -/
def place : Stmt σ → List Label
  | node n => n.places
  | loop l _ | iteration _ _ l _ => [l.leave, l.next]
  | switch _ _ default => (default.map Prod.fst).toList
  | goto _ | conditional _ _ | attempt _ _ _ | resource _ _ _ => []

theorem place_map (f : σ → τ) (stmt : Stmt σ) : (stmt.map f).place = stmt.place := by
  cases stmt with
  | switch value groups default => cases default <;> rfl
  | _ => rfl

end Stmt

namespace Scope

/-- The labels that are placed by the statements of a scope and of all scopes in it. -/
def places : Scope → List Label :=
  fold fun _ stmts => stmts.flatMap Stmt.place ++ (stmts.flatMap Stmt.scopes).flatten

theorem flatMap_place_map {σ τ : Type} (f : σ → τ) (stmts : List (Stmt σ)) :
    (stmts.map (Stmt.map f)).flatMap Stmt.place = stmts.flatMap Stmt.place := by
  rw [List.flatMap_map]
  exact List.flatMap_congr fun stmt _ => Stmt.place_map f stmt

theorem places_eq (s : Scope) :
    s.places = s.stmts.flatMap Stmt.place ++ s.children.flatMap places := by
  obtain ⟨frame, stmts⟩ := s
  simp only [places, fold_mk, flatMap_place_map, flatMap_scopes_map]
  rfl

/-- The places of a tree are those of all its statements. -/
theorem places_eq_flatMap (s : Scope) :
    s.places = (s.subscopes.flatMap stmts).flatMap Stmt.place := by
  induction s using induct with
  | step s ih =>
    rw [places_eq, subscopes_eq, List.flatMap_cons, List.flatMap_append, List.flatMap_congr ih,
      ← List.flatMap_assoc, ← List.flatMap_assoc]

theorem gathers_places : Gathers (fun s => s.stmts.flatMap Stmt.place) places where
  total_eq := places_eq
  own_map _ _ := flatMap_place_map _ _

/-- A scope without statements places nothing. -/
theorem places_of_stmts {s : Scope} (h : s.stmts = []) : s.places = [] := by
  rw [places_eq, children, h]
  rfl

end Scope

namespace Builder

variable {F : Fragment → Prop} {b b' : Builder} {c : Chain}

/-- The labels that an edit places. They have the next numbers, and no names; but one that was
placed under a new name is known by it from then on. -/
inductive NewPlaces (b b' : Builder) : List Label → Prop
  | unnamed {extra : List Label} (labels : b'.labels = b.labels)
      (ids : (extra.map Label.id).Nodup)
      (fresh : ∀ l ∈ extra, b.labelCount ≤ l.id ∧ l.id < b'.labelCount ∧ l.name = none)
      (labelCount : b.labelCount ≤ b'.labelCount) : NewPlaces b b' extra
  | named {name : String} (new : b.label? name = none)
      (labels : b'.labels = b.labels ++ [Label.named b.labelCount name])
      (labelCount : b'.labelCount = b.labelCount + 1) :
      NewPlaces b b' [Label.named b.labelCount name]

namespace NewPlaces

variable {extra : List Label}

theorem none (labels : b'.labels = b.labels) (labelCount : b.labelCount ≤ b'.labelCount) :
    b.NewPlaces b' [] :=
  .unnamed labels List.nodup_nil nofun labelCount

/-- Only what is counted and known in the builder matters to what is new. -/
theorem changing (h : b.NewPlaces b' extra) (id : ScopeId) (f : Scope → Scope) :
    b.NewPlaces (b'.changing id f) extra := by
  cases h with
  | unnamed labels ids fresh labelCount => exact .unnamed labels ids fresh labelCount
  | named new labels labelCount => exact .named new labels labelCount

theorem fresh (h : b.NewPlaces b' extra) :
    (extra.map Label.id).Nodup ∧ (∀ l ∈ extra, b.labelCount ≤ l.id ∧ l.id < b'.labelCount) ∧
      b.labelCount ≤ b'.labelCount := by
  cases h with
  | unnamed labels ids fresh labelCount =>
    exact ⟨ids, fun l hl => ⟨(fresh l hl).1, (fresh l hl).2.1⟩, labelCount⟩
  | named new labels labelCount =>
    refine ⟨List.nodup_singleton _, List.forall_mem_singleton.mpr ⟨Nat.le_refl _, ?_⟩, ?_⟩
    · exact labelCount ▸ Nat.lt_succ_self _
    · exact labelCount ▸ Nat.le_succ _

end NewPlaces

/-- What the statements of an operation place is new. -/
theorem Adds.newPlaces {stmts : List (Stmt Scope)} (h : b.Adds F c stmts b') :
    b.NewPlaces b' (stmts.flatMap Stmt.place ++ (stmts.flatMap Stmt.scopes).flatMap Scope.places) := by
  have hcount := h.alike.labelCount
  cases h with
  | label new => exact .named new rfl rfl
  | whileLoop =>
    show b.NewPlaces _ [Label.internal (b.labelCount + 1), Label.internal b.labelCount]
    refine .unnamed rfl ?_ ?_ hcount
    · simp [Label.internal]
    · simp [Label.internal, taking]
  | doWhile =>
    show b.NewPlaces _ [Label.internal (b.labelCount + 1), Label.internal b.labelCount,
      Label.internal (b.labelCount + 2)]
    refine .unnamed rfl ?_ ?_ hcount
    · simp [Label.internal]
    · simp [Label.internal, taking]
  | iteration =>
    show b.NewPlaces _ [Label.internal (b.labelCount + 1), Label.internal b.labelCount]
    refine .unnamed rfl ?_ ?_ hcount
    · simp [Label.internal]
    · simp [Label.internal, taking]
  | _ => exact .none rfl hcount

/-- What a construct places when it grows is new. -/
theorem Grows.newPlaces {old new : Stmt Scope} (h : b.Grows F c old new b') :
    ∃ extra, b.NewPlaces b' extra ∧ new.place = old.place ++ extra := by
  have hcount := h.alike.labelCount
  cases h with
  | default =>
    refine ⟨[Label.internal b.labelCount], .unnamed rfl (List.nodup_singleton _) ?_ hcount, rfl⟩
    exact List.forall_mem_singleton.mpr ⟨Nat.le_refl _, Nat.lt_succ_self _, rfl⟩
  | _ => exact ⟨[], .none rfl hcount, (List.append_nil _).symm⟩

theorem addStmts_places (stmts : List (Stmt Scope)) (s : Scope) :
    (addStmts stmts s).places.Perm
      (s.places ++ (stmts.flatMap Stmt.place ++ (stmts.flatMap Stmt.scopes).flatMap Scope.places)) := by
  rw [Scope.places_eq, Scope.places_eq s, addStmts_children, addStmts, List.flatMap_append,
    List.flatMap_append, List.append_assoc, List.append_assoc]
  refine List.Perm.append_left _ ?_
  rw [← List.append_assoc, ← List.append_assoc]
  exact List.perm_append_comm.append_right _

theorem setStmt_places {s : Scope} {index : Nat} {old new : Stmt Scope} {extra : List Label}
    {scopes : List Scope} (standing : s.stmts[index]? = some old)
    (hscopes : new.scopes.Perm (old.scopes ++ scopes)) (hempty : ∀ n ∈ scopes, n.stmts = [])
    (hplace : new.place = old.place ++ extra) :
    (setStmt index new s).places.Perm (s.places ++ extra) := by
  have hnew : scopes.flatMap Scope.places = [] :=
    List.flatMap_eq_nil_iff.mpr fun n hn => Scope.places_of_stmts (hempty n hn)
  have hchildren : ((setStmt index new s).children.flatMap Scope.places).Perm
      (s.children.flatMap Scope.places) := by
    refine ((setStmt_children standing hscopes).flatMap_right _).trans (.of_eq ?_)
    rw [List.flatMap_append, hnew, List.append_nil]
  have hstmts : ((s.stmts.set index new).flatMap Stmt.place).Perm
      (s.stmts.flatMap Stmt.place ++ extra) := flatMap_set_perm standing (.of_eq hplace)
  rw [Scope.places_eq, Scope.places_eq s, List.append_assoc]
  refine (hstmts.append hchildren).trans ?_
  rw [List.append_assoc]
  exact List.perm_append_comm.append_left _

/-- What an edit does to the places. -/
theorem Edit.newPlaces (h : b.Edit F b') (hdistinct : b.top.Distinct) :
    ∃ extra, b.NewPlaces b' extra ∧ b'.top.places.Perm (b.top.places ++ extra) ∧
      b'.returnLabel = b.returnLabel := by
  have frameOnly : ∀ {outer : Chain} {s : Scope} {g : Frame → Frame}, b.top.Within outer s →
      (b.top.update s.frame.id (Scope.modifyFrame g)).places.Perm (b.top.places ++ []) := by
    intro outer s g place
    refine Scope.gathers_places.update hdistinct place rfl (.of_eq ?_)
    rw [Scope.places_eq, Scope.places_eq s, List.append_nil]
    rfl
  cases h with
  | param => exact ⟨[], .none rfl (Nat.le_refl _), frameOnly .here, rfl⟩
  | declare place => exact ⟨[], .none rfl (Nat.le_refl _), frameOnly place, rfl⟩
  | @add outer s stmts b₁ place adds =>
    refine ⟨_, adds.newPlaces.changing _ _, ?_, adds.alike.returnLabel⟩
    rw [changing, adds.top_eq]
    exact Scope.gathers_places.update hdistinct place rfl (addStmts_places stmts s)
  | @grow outer s index old new b₁ place standing grows =>
    obtain ⟨scopes, -, hscopes, hempty⟩ := grows.newScopes
    obtain ⟨extra, hextra, hplace⟩ := grows.newPlaces
    refine ⟨extra, hextra.changing _ _, ?_, grows.alike.returnLabel⟩
    rw [changing, grows.top_eq]
    exact Scope.gathers_places.update hdistinct place rfl
      (setStmt_places standing hscopes (fun n hn => (hempty n hn).1) hplace)

/-! ## Numbers and names -/

/-- Labels with a place are told apart by numbers that are given out already, and one that has a
name is what the name stands for; the return label has none. -/
structure Placed (b : Builder) : Prop where
  ids : ((b.returnLabel :: b.top.places).map Label.id).Nodup
  id_lt : ∀ l ∈ b.returnLabel :: b.top.places, l.id < b.labelCount
  named : ∀ name l, b.label? name = some l ↔ l ∈ b.top.places ∧ l.name = some name
  unnamed : b.returnLabel.name = none

/-- A number of a label belongs to one statement. -/
theorem Placed.stmt_eq (hb : b.Placed) {outer outer' : Chain} {s t : Scope} {x y : Stmt Scope}
    {l m : Label} (hs : b.top.Within outer s) (ht : b.top.Within outer' t) (hx : x ∈ s.stmts)
    (hy : y ∈ t.stmts) (hl : l ∈ x.place) (hm : m ∈ y.place) (hid : l.id = m.id) : x = y := by
  have hids := hb.ids.of_cons
  rw [Scope.places_eq_flatMap] at hids
  exact Label.eq_of_nodup hids (List.mem_flatMap.mpr ⟨s, Scope.mem_subscopes_iff.mpr ⟨_, hs⟩, hx⟩)
    (List.mem_flatMap.mpr ⟨t, Scope.mem_subscopes_iff.mpr ⟨_, ht⟩, hy⟩) hl hm hid

theorem placed_empty (options : Options) (returnType : Ty) :
    (Builder.empty options returnType).Placed where
  ids := List.nodup_singleton _
  id_lt := List.forall_mem_singleton.mpr Nat.zero_lt_one
  named name l := by
    constructor
    · exact nofun
    · rintro ⟨hl, -⟩
      exact absurd hl List.not_mem_nil
  unnamed := rfl

/-- A name stands for what it stood for, or for the label that was placed under it. -/
theorem NewPlaces.label?_iff {extra : List Label} (h : b.NewPlaces b' extra) (name : String)
    (l : Label) : b'.label? name = some l ↔
      b.label? name = some l ∨ l ∈ extra ∧ l.name = some name := by
  cases h with
  | unnamed labels ids fresh labelCount =>
    rw [label?, labels]
    refine ⟨.inl, fun hl => hl.resolve_right fun ⟨hl, hname⟩ => ?_⟩
    rw [(fresh l hl).2.2] at hname
    cases hname
  | @named name' new labels labelCount =>
    rw [label?, labels, List.find?_append, ← label?, List.mem_singleton]
    by_cases hname : name' = name
    · obtain rfl := hname
      rw [new, Option.none_or]
      constructor
      · intro hl
        exact .inr ⟨List.mem_singleton.mp (List.mem_of_find?_eq_some hl),
          beq_iff_eq.mp (List.find?_some (p := fun l : Label => l.name == some name') hl)⟩
      · rintro (hl | ⟨rfl, -⟩)
        · cases hl
        · simp [Label.named]
    · have hother : [Label.named b.labelCount name'].find? (·.name == some name) = Option.none := by
        simp [Label.named, hname]
      rw [hother, Option.or_none]
      refine ⟨.inl, fun hl => hl.resolve_right ?_⟩
      rintro ⟨rfl, hl⟩
      exact hname (Option.some.inj hl)

theorem NewPlaces.placed {extra : List Label} (h : b.NewPlaces b' extra) (hb : b.Placed)
    (hplaces : b'.top.places.Perm (b.top.places ++ extra))
    (hreturn : b'.returnLabel = b.returnLabel) : b'.Placed := by
  obtain ⟨hids, hfresh, hcount⟩ := h.fresh
  have hall : (b'.returnLabel :: b'.top.places).Perm ((b.returnLabel :: b.top.places) ++ extra) := by
    rw [hreturn]
    exact hplaces.cons _
  constructor
  · refine (hall.map Label.id).nodup_iff.mpr ?_
    rw [List.map_append, List.nodup_append]
    refine ⟨hb.ids, hids, fun i hi j hj => ?_⟩
    obtain ⟨l, hl, rfl⟩ := List.mem_map.mp hi
    obtain ⟨l', hl', rfl⟩ := List.mem_map.mp hj
    exact Nat.ne_of_lt (Nat.lt_of_lt_of_le (hb.id_lt l hl) (hfresh l' hl').1)
  · intro l hl
    rcases List.mem_append.mp (hall.mem_iff.mp hl) with hl | hl
    · exact Nat.lt_of_lt_of_le (hb.id_lt l hl) hcount
    · exact (hfresh l hl).2
  · intro name l
    rw [h.label?_iff, hb.named, hplaces.mem_iff, List.mem_append, or_and_right]
  · rw [hreturn]
    exact hb.unnamed

theorem Built.placed (h : Built F b) : b.Placed := by
  induction h with
  | empty options returnType => exact placed_empty options returnType
  | edit built edit ih =>
    obtain ⟨extra, hextra, hplaces, hreturn⟩ := edit.newPlaces built.numbered.distinct
    exact hextra.placed ih hplaces hreturn

end Builder

end StructuredFlow
