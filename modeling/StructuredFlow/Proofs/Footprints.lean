import Mathlib.Data.List.Flatten
import StructuredFlow.Proofs.NodeTree
import StructuredFlow.Proofs.Termination

/-
  What an execution leaves behind, whatever the tree is, wherever it is entered and however it ends.
  Variables get values from assignments and handlers, which are listed with the tree
  (`Node.stored`), and from blocks (`Node.declared`), which leave alone what has a value. So no
  variable loses its value, one that is neither assigned nor bound by a handler is as it was or has
  come into being with the zero of its type, and the log of disposals goes on from what it was
  (`Node.footprint_law`). These are transitive, and an evaluation touches no variable, so each is
  seen from the few things that a node does by itself (`Node.carries_framed`).
-/

namespace StructuredFlow

open Outcome

variable {ω : Type}

namespace Node

/-- The variables that a node itself gives any value to: by an assignment, or in a handler. -/
def stores : Node → List Symbol
  | assign target _ => [target]
  | attempt _ handlers _ => handlers.flatMap fun h => h.binding.toList
  | _ => []

/-- The variables that are assigned in the tree, or bound by a handler of it. -/
def stored (n : Node) : List Symbol :=
  n.subnodes.flatMap stores

/-- The variables of the blocks of the tree. -/
def declared (n : Node) : List Symbol :=
  n.subnodes.flatMap locals

end Node

namespace Machine

/-- The second machine has come from the first one with no more than that the stored variables have
been given values, the declared ones have come into being, and disposals have been logged. -/
structure Framed (stored declared : List Symbol) (m m' : Machine ω) : Prop where
  grows : m.env.Grows m'.env
  vars : ∀ id, (∀ s ∈ stored, s.id ≠ id) → m'.env.get? id = m.env.get? id ∨
    m.env.get? id = none ∧ ∃ s ∈ declared, s.id = id ∧ m'.env.get? id = some (Value.zero s.ty)
  log : m.disposeLog.toList <+: m'.disposeLog.toList

namespace Framed

variable {stored declared : List Symbol} {m m' m'' : Machine ω}

theorem of_eq (henv : m'.env = m.env) (hlog : m'.disposeLog = m.disposeLog) :
    Framed stored declared m m' where
  grows _ hid := henv ▸ hid
  vars _ _ := .inl (congrArg (Env.get? · _) henv)
  log := hlog ▸ List.prefix_refl _

theorem refl (m : Machine ω) : Framed stored declared m m :=
  of_eq rfl rfl

theorem trans (h : Framed stored declared m m') (h' : Framed stored declared m' m'') :
    Framed stored declared m m'' where
  grows _ hid := h'.grows _ (h.grows _ hid)
  log := h.log.trans h'.log
  vars id hid := by
    rcases h.vars id hid with hsame | ⟨hnone, s, hs, hsid, hzero⟩
    · rw [← hsame]
      exact h'.vars id hid
    · rcases h'.vars id hid with hsame' | ⟨hnone', -⟩
      · exact .inr ⟨hnone, s, hs, hsid, hsame'.trans hzero⟩
      · cases hzero.symm.trans hnone'

theorem assign {s : Symbol} (hs : s ∈ stored) (m : Machine ω) (v : Value) :
    Framed stored declared m (m.assign s v) where
  grows _ hid := Env.contains_insert.mpr (.inr hid)
  vars _ hid := .inl ((Env.get?_insert _ _ _ _).trans (if_neg (hid s hs).symm))
  log := List.prefix_refl _

theorem declare {locals : List Symbol} (hlocals : locals ⊆ declared) (m : Machine ω) :
    Framed stored declared m (m.declare locals) := by
  induction locals generalizing m with
  | nil => exact refl m
  | cons s locals ih =>
    obtain ⟨hs, hlocals⟩ := List.cons_subset.mp hlocals
    refine trans ?_ (ih hlocals (m.declare [s]))
    refine ⟨fun _ hid => Env.contains_declare.mpr (.inr hid), fun id _ => ?_, List.prefix_refl _⟩
    show (m.env.declare s).get? id = _ ∨ _ ∧ ∃ t ∈ declared, _ ∧ (m.env.declare s).get? id = _
    rw [Env.get?_declare]
    split
    next hnew =>
      obtain ⟨rfl, hnone⟩ := hnew
      exact .inr ⟨hnone, s, hs, rfl, rfl⟩
    next => exact .inl rfl

/-- The variable of a handler is stored; what is behind the handler changes no variable. -/
theorem endHandling {h : Handler Node} (hs : h.binding.toList ⊆ stored) (v : Value)
    (m m' : Machine ω) (hbody : Framed stored declared (h.enter v m) m') :
    Framed stored declared m m'.endHandling := by
  have henter : Framed stored declared m (h.enter v m) := by
    unfold Handler.enter
    split
    next s hbinding =>
      have hs := hs (Option.mem_toList.mpr hbinding)
      exact (assign hs m v).trans (of_eq rfl rfl)
    next => exact of_eq rfl rfl
  exact (henter.trans hbody).trans (of_eq rfl rfl)

theorem closed : Eval.Closed (ω := ω) fun x => Preserves (Framed stored declared) x :=
  Eval.closed_preserves refl (fun _ _ _ => trans) (fun _ _ _ => of_eq rfl rfl)
    (fun _ _ => of_eq rfl rfl) fun m name =>
      ⟨fun _ hid => hid, fun _ _ => .inl rfl, ⟨[name], by simp [logDisposal]⟩⟩

end Framed

end Machine

namespace Node

open Machine

variable {stored declared : List Symbol}

theorem carries_framed : Carries (ω := ω) (Framed stored declared)
    fun n => n.stored ⊆ stored ∧ n.declared ⊆ declared where
  refl := Framed.refl
  trans _ _ _ := Framed.trans
  steps _ _ := .of_eq rfl rfl
  eval := Framed.closed.eval
  choice value arms :=
    Framed.closed.andThen (Framed.closed.eval value) fun v => Framed.closed.select v arms
  assign target value hn m v :=
    .assign (hn.1 (List.mem_flatMap.mpr ⟨_, self_mem_subnodes _, List.mem_singleton_self _⟩)) m v
  declare locals body hn m :=
    .declare (fun s hs => hn.2 (List.mem_flatMap.mpr ⟨_, self_mem_subnodes _, hs⟩)) m
  handle body handlers cleanup hn h hh := by
    refine Framed.endHandling fun s hs => hn.1 (List.mem_flatMap.mpr ⟨_, self_mem_subnodes _, ?_⟩)
    exact List.mem_flatMap.mpr ⟨h, hh, hs⟩
  children n hn c hc := by
    have hbelow := subnodes_sublist (mem_subnodes_of_mem_children hc c.self_mem_subnodes)
    exact ⟨List.Subset.trans (hbelow.flatMap stores).subset hn.1,
      List.Subset.trans (hbelow.flatMap locals).subset hn.2⟩

/-- What an execution of the tree leaves behind. -/
structure Footprint (n : Node) (m m' : Machine ω) : Prop where
  /-- A variable that has changed is stored or declared in the tree. -/
  changed : ∀ id, m'.env.get? id ≠ m.env.get? id →
    (∃ s ∈ n.stored, s.id = id) ∨ ∃ s ∈ n.declared, s.id = id
  /-- No variable loses its value. -/
  present : ∀ id v, m.env.get? id = some v → ∃ v', m'.env.get? id = some v'
  /-- A variable that is not stored in the tree changes only by coming into being, with a zero. -/
  zeroed : ∀ id, (∀ s ∈ n.stored, s.id ≠ id) → m'.env.get? id ≠ m.env.get? id →
    m.env.get? id = none ∧
      ∃ s ∈ n.declared, s.id = id ∧ m'.env.get? id = some (Value.zero s.ty)
  /-- Disposals are added to the log at its end. -/
  log : ∃ later, m'.disposeLog.toList = m.disposeLog.toList ++ later

theorem Footprint.of_framed {n : Node} {m m' : Machine ω}
    (h : Framed n.stored n.declared m m') : n.Footprint m m' where
  changed id hid := by
    by_cases hstored : ∃ s ∈ n.stored, s.id = id
    · exact .inl hstored
    · have hspared : ∀ s ∈ n.stored, s.id ≠ id := fun s hs hsid => hstored ⟨s, hs, hsid⟩
      rcases h.vars id hspared with hsame | ⟨-, s, hs, hsid, -⟩
      · exact absurd hsame hid
      · exact .inr ⟨s, hs, hsid⟩
  present id v hv := Option.isSome_iff_exists.mp (h.grows id (Option.isSome_iff_exists.mpr ⟨v, hv⟩))
  zeroed id hid hchanged := (h.vars id hid).resolve_left hchanged
  log := h.log.imp fun _ => Eq.symm

/-- The frame of executions: of any tree, entered at its start or at any place, in any machine, and
with any end. -/
theorem footprint_law (n : Node) (m : Machine ω) :
    (∀ fuel d, n.Footprint m (final (n.execWithin fuel d m))) ∧
      n.Footprint m (final (n.exec m)) := by
  have hwithin (fuel : Nat) (d : Option Descent) :
      n.Footprint m (final (n.execWithin fuel d m)) :=
    .of_framed (execWithin_preserves carries_framed fuel
      ⟨List.Subset.refl _, List.Subset.refl _⟩ d m)
  exact ⟨hwithin, n.final_exec m ▸ hwithin _ none⟩

end Node

end StructuredFlow
