import StructuredFlow.Proofs.Layout
import StructuredFlow.Proofs.StaticScoping

/-
  Assembly loses nothing, duplicates nothing and reorders nothing. The body of a program has a plan
  by which every statement is at one node, all other nodes are there for some purpose that no two of
  them share, and the statements of a scope stand together in their order (`Plan.LaysOut`); and a
  variable belongs to one block. All programs have such a plan (`Builder.Reachable.laid_out`).
-/

namespace StructuredFlow

namespace Node

theorem locals_sublist (n : Node) : n.locals.Sublist n.binds := by
  cases n <;> simp [locals, binds]

end Node

/-- A plan that is in one that describes a tree describes a node of the tree. -/
theorem Plan.Describes.exists_of_mem {b : Builder} {plan p : Plan} {n : Node}
    (h : plan.Describes b n) (hp : p ∈ plan.subplans) : ∃ m ∈ n.subnodes, p.Describes b m := by
  induction n using Node.induct generalizing plan with
  | step n ih =>
    rw [subplans_eq, List.mem_cons, List.mem_flatMap] at hp
    rcases hp with rfl | ⟨q, hq, hp⟩
    · exact ⟨n, n.self_mem_subnodes, h⟩
    · cases h with
      | node plays stands below =>
        obtain ⟨c, hc, hqc⟩ := exists_right_of_forall₂ below hq
        obtain ⟨m, hm, hpm⟩ := ih c hc hqc hp
        exact ⟨m, Node.mem_subnodes_of_mem_children hc hm, hpm⟩

namespace Builder

variable {F : Fragment → Prop} {b : Builder} {a : Artifact}

/-- The variable is a local of a scope, or a statement has it for itself. -/
inductive Stores (b : Builder) : Symbol → Prop
  | frame {id s x} (found : b.top.find? id = some s) (mem : x ∈ s.frame.locals) : Stores b x
  | held {site stmt x producer} (place : b.at? site = some stmt)
      (held : stmt.held? = some (x, producer)) : Stores b x

/-- What a statement with a variable for itself becomes begins a block with the variable. -/
theorem Makes.locals_of_held {stmt : Stmt Scope} {n : Node} {x : Symbol} {producer : Expr}
    (h : b.Makes stmt n) (hheld : stmt.held? = some (x, producer)) : n.locals = [x] := by
  unfold Makes at h
  cases stmt with
  | iteration iterator collection l c =>
    cases hheld
    cases h
    unfold Node.ofIteration
    dsimp only
    split <;> rfl
  | resource s p c =>
    cases hheld
    cases h
    rfl
  | _ => cases hheld

/-- A variable belongs to one block. -/
theorem Built.count_locals (hb : b.Built F) (ha : b.assemble = .ok a) {x : Symbol}
    (hx : b.Stores x) : (a.body.subnodes.flatMap Node.locals).count x = 1 := by
  have hdescribes := hb.plan_describes ha
  have hnodup : (a.body.subnodes.flatMap Node.locals).Nodup :=
    nodup_of_subperm (subperm_flatMap fun n _ => n.locals_sublist.subperm)
      ((hb.body_binders_nodup ha).of_map _)
  refine List.count_eq_one_of_mem hnodup (List.mem_flatMap.mpr ?_)
  cases hx with
  | @frame id s x found mem =>
    obtain ⟨outer, place, rfl⟩ := Scope.exists_of_find? found
    cases plan_keeps place with
    | nothing stmts locals => exact absurd (locals ▸ mem) List.not_mem_nil
    | alone _ locals => exact absurd (locals ▸ mem) List.not_mem_nil
    | block hp =>
      obtain ⟨m, hm, hdescribed⟩ := hdescribes.exists_of_mem hp
      cases hdescribed with
      | node plays =>
        obtain ⟨t, nodes, ht, rfl⟩ := plays
        obtain rfl := Option.some.inj (found.symm.trans ht)
        exact ⟨_, hm, mem⟩
  | @held site stmt x producer place held =>
    have hsite := (hb.numbered.covers_plan.2 site).mpr ⟨stmt, place⟩
    obtain ⟨p, hp, hstands⟩ := List.mem_flatMap.mp hsite
    obtain ⟨m, hm, hdescribed⟩ := hdescribes.exists_of_mem hp
    cases hdescribed with
    | node plays stands =>
      obtain ⟨stmt', hat, hmakes⟩ := stands site hstands
      obtain rfl := Option.some.inj (place.symm.trans hat)
      exact ⟨m, hm, hmakes.locals_of_held held ▸ List.mem_singleton_self x⟩

end Builder

/-- The plan says of every node of the program what it is there for, and loses nothing. -/
structure Plan.LaysOut (plan : Plan) (b : Builder) (a : Artifact) : Prop where
  /-- Each node is what its purpose prescribes, and what the statements become that it stands
  for. -/
  describes : plan.Describes b a.body
  /-- No statement stands at two nodes. -/
  once : plan.covers.Nodup
  /-- Every statement stands somewhere, and nothing else does. -/
  covers : ∀ site, site ∈ plan.covers ↔ ∃ stmt, b.at? site = some stmt
  /-- No two nodes are there for one purpose. -/
  purposes : plan.purposes.Nodup
  /-- The statements of a scope are together, in their order. -/
  keeps : ∀ id s, b.top.find? id = some s → plan.Keeps s
  /-- A variable belongs to one block, once. -/
  stored : ∀ x, b.Stores x → (a.body.subnodes.flatMap Node.locals).count x = 1

namespace Builder

variable {b : Builder} {a : Artifact}

/-- A program that is assembled has its statements at one node each, those of a scope together and
in their order, and otherwise only the nodes that constructs, empty scopes, blocks and the end of
the program ask for. The order is that in which the statements came in: what was put into a scope
stays where it is, and what comes later comes behind. -/
theorem Reachable.laid_out (hb : b.Reachable) (ha : b.assemble = .ok a) :
    (∃ plan : Plan, plan.LaysOut b a) ∧
    ∀ (b₀ : Builder) site stmt, b₀.Reachable → b₀.Later b → b₀.at? site = some stmt →
      (∃ stmt', b.at? site = some stmt' ∧ stmt'.kind = stmt.kind) ∧
        ∀ i, b₀.at? ⟨site.scope, i⟩ = none → site.index < i := by
  refine ⟨⟨b.plan, ?_⟩, fun b₀ site stmt h₀ later hat => ⟨later.at?_kept h₀.built hat, ?_⟩⟩
  · exact {
      describes := hb.built.plan_describes ha
      once := hb.built.numbered.covers_plan.1
      covers := hb.built.numbered.covers_plan.2
      purposes := hb.built.numbered.purposes_nodup
      keeps := fun id s hs => by
        obtain ⟨outer, place, -⟩ := Scope.exists_of_find? hs
        exact plan_keeps place
      stored := fun x hx => hb.built.count_locals ha hx }
  · intro i hnone
    obtain ⟨s, hs, hstmt⟩ := Option.bind_eq_some_iff.mp hat
    rw [at?, hs, Option.bind_some, List.getElem?_eq_none_iff] at hnone
    exact Nat.lt_of_lt_of_le (List.getElem?_eq_some_iff.mp hstmt).1 hnone

/-- A switch with an empty group, whose default returns: the label that the group jumps to comes
before the return, so the default is a block of the two. -/
theorem laid_out_in_switch :
    ∃ (b₀ b : Builder) (a : Artifact), b.Reachable ∧ b.assemble = .ok a ∧
      a.body = .block [] [
        .switch (.const (.int 0)) [⟨[.const (.int 0)], .jump (.internal 1)⟩]
          (some (.block [] [.mark (.internal 1), .goto (.typed 0 .void) none])),
        .label (.typed 0 .void) none] ∧
      (∃ plan : Plan, plan.LaysOut b a) ∧ b₀.Reachable ∧ b₀.Later b ∧
      b₀.at? ⟨0, 0⟩ = some (.switch (.const (.int 0)) [] none) ∧
      (∃ stmt, b.at? ⟨0, 0⟩ = some stmt ∧ stmt.kind = .switch) ∧
      b₀.at? ⟨0, 1⟩ = none ∧ 0 < 1 := by
  obtain ⟨b, hb⟩ : ∃ b, Builder.create ⟨"f", false⟩ [] .void = .ok b := ⟨_, rfl⟩
  have hswitch := (Reachable.create hb).opening 0 (.switchOn ⟨[], .const (.int 0)⟩)
  have hgroup := hswitch.step (h := .switch ⟨0, 0⟩) (s := .case ⟨[], .const (.int 0)⟩) rfl
  have hdefault := hgroup.step (h := .switch ⟨0, 0⟩) (s := .default) rfl
  have hreturn := hdefault.statement 1 .returnVoid
  have later₁ := (Later.refl (b := (Build.opening 0 (.switchOn ⟨[], .const (.int 0)⟩)).after b)).step
    (h := .switch ⟨0, 0⟩) (s := .case ⟨[], .const (.int 0)⟩) rfl
  have later₂ := later₁.step (h := .switch ⟨0, 0⟩) (s := .default) rfl
  have later := later₂.statement 1 .returnVoid
  cases hb
  let body : Node := .block [] [
    .switch (.const (.int 0)) [⟨[.const (.int 0)], .jump (.internal 1)⟩]
      (some (.block [] [.mark (.internal 1), .goto (.typed 0 .void) none])),
    .label (.typed 0 .void) none]
  obtain ⟨b, a, hb, ha, hbody, later⟩ : ∃ b a, b.Reachable ∧ b.assemble = .ok a ∧
      a.body = body ∧ Later _ b := ⟨_, _, hreturn, rfl, rfl, later⟩
  obtain ⟨hplan, hstays⟩ := hb.laid_out ha
  obtain ⟨hkept, hbehind⟩ := hstays _ ⟨0, 0⟩ _ hswitch later rfl
  exact ⟨_, b, a, hb, ha, hbody, hplan, hswitch, later, rfl, hkept, rfl, hbehind 1 rfl⟩

end Builder

end StructuredFlow
