import Mathlib.Data.List.Forall2
import StructuredFlow.Proofs.NodeOutcomes

/-
  Labels that nothing jumps to. A node shuns a label if it never ends with a jump to it, and what
  the statements of a row or the arms of a switch shun, the whole does. A mark of such a label in
  front of other statements can be left out: the block settles as before wherever both can be
  entered (`Block.Ignores.cons_mark`), and a switch with such a block among its bodies comes to the
  same (`Node.AlikeBut.arm_iff`).
-/

namespace StructuredFlow

variable {ω : Type}

open Exec

namespace Node

variable {hidden : LabelId → Prop} {n n' : Node} {m m' : Machine ω} {d : Option Descent}
  {l : LabelId} {v : Option Value} {r : Report ω}

/-- The node never ends with a jump to one of the labels. -/
def Shuns (ω : Type) (hidden : LabelId → Prop) (n : Node) : Prop :=
  ∀ l v, hidden l → ∀ d (m m' : Machine ω), ¬n.Yields d m (.ok (.jump l v) m')

theorem Shuns.settling (h : n.Shuns ω hidden) (hl : hidden l) :
    ¬(n.settling d m).Comes (.ok (.jump l v) m') := by
  rintro ⟨k, hk⟩
  induction k using Nat.strong_induction_on generalizing d m with
  | _ k ih =>
    cases hk with
    | @call _ _ k₁ r₁ k₂ _ inner later =>
      by_cases hr₁ : n.Reenters r₁
      · obtain ⟨l₁, v₁, m₁, rfl, hl₁⟩ := hr₁
        rw [resume_of_reenters hl₁] at later
        exact ih k₂ (by omega) later
      · rw [resume_of_not_reenters hr₁] at later
        cases later
        exact h l v hl d m m' (yields_iff_comes.mpr ⟨k₁, inner⟩)

/-- What statements in a row shun, the row shuns. -/
theorem row_shuns {nodes rest : List Node} {last : Value} (h : ∀ n ∈ nodes, n.Shuns ω hidden)
    (hrest : rest ⊆ nodes) (hl : hidden l) :
    ¬(Turn.row nodes rest d last m).Comes (.ok (.jump l v) m') := by
  rintro ⟨k, hk⟩
  induction k using Nat.strong_induction_on generalizing rest d last m with
  | _ k ih =>
    cases rest with
    | nil => cases hk
    | cons n rest =>
      obtain ⟨hn, hrest⟩ := List.cons_subset.mp hrest
      cases hk with
      | @call _ _ k₁ r₁ k₂ _ inner later =>
        cases r₁ with
        | error e m₁ => cases later
        | ok flow m₁ =>
          cases flow with
          | normal v₁ => exact ih k₂ (by omega) hrest later
          | throw v₁ => cases later
          | jump l₁ v₁ =>
            dsimp only [Waiting.resume] at later
            cases hplace : placeOf l₁ nodes with
            | nil =>
              rw [hplace] at later
              cases later
              exact h n hn l v hl d m m' (yields_iff_comes.mpr ⟨k₁, inner⟩)
            | cons n₁ place =>
              rw [hplace] at later
              exact ih k₂ (by omega) (hplace ▸ placeOf_subset l₁ nodes) later

theorem Shuns.collapse {B : Block} (h : ∀ n ∈ B.nodes, n.Shuns ω hidden) :
    B.collapse.Shuns ω hidden := by
  obtain ⟨locals, nodes⟩ := B
  unfold Block.collapse
  split
  next =>
    intro l v _ d m m' hjump
    obtain ⟨_, hjump⟩ := yields_iff_comes.mp hjump
    cases hjump
  next n heq =>
    cases heq
    exact h n (List.mem_singleton_self n)
  next heq =>
    cases heq
    intro l v hl d m m' hjump
    refine row_shuns h ?_ hl (yields_iff_comes.mp hjump)
    cases d with
    | none => exact List.Subset.refl _
    | some s => exact placeOf_subset _ _

/-- What the arms of a switch shun, the switch shuns. -/
theorem arm_shuns {bodies : List Node} {o : Option Node} (h : ∀ n ∈ bodies, n.Shuns ω hidden)
    (ho : ∀ n ∈ o, n ∈ bodies) (hl : hidden l) :
    ¬(Turn.arm bodies o d m).Comes (.ok (.jump l v) m') := by
  rintro ⟨k, hk⟩
  induction k using Nat.strong_induction_on generalizing o d m with
  | _ k ih =>
    cases o with
    | none => cases hk
    | some n =>
      cases hk with
      | @call _ _ k₁ r₁ k₂ _ inner later =>
        cases r₁ with
        | error e m₁ => cases later
        | ok flow m₁ =>
          cases flow with
          | normal v₁ | throw v₁ => cases later
          | jump l₁ v₁ =>
            dsimp only [Waiting.resume] at later
            cases hfind : bodies.find? (·.defines l₁) with
            | none =>
              rw [hfind] at later
              cases later
              exact h n (ho n rfl) l v hl d m m' (yields_iff_comes.mpr ⟨k₁, inner⟩)
            | some c =>
              rw [hfind] at later
              refine ih k₂ (by omega) (fun n hn => ?_) later
              exact Option.some.inj hn ▸ List.mem_of_find?_eq_some hfind

theorem Shuns.switch {value : Expr} {arms : List (Arm Node)} {default : Option Node}
    (h : ∀ c ∈ (Node.switch value arms default).children, c.Shuns ω hidden) :
    (Node.switch value arms default).Shuns ω hidden := by
  intro l v hl d m m' hjump
  have hcomes := yields_iff_comes.mp hjump
  cases d with
  | some s => exact arm_shuns h (fun n hn => List.mem_of_find?_eq_some hn) hl hcomes
  | none =>
    dsimp only [Call.begin] at hcomes
    cases hchoice : (value.eval >>= fun v => select v arms) m with
    | error e m₁ =>
      rw [hchoice] at hcomes
      cases e <;> cases Turn.comes_done.mp hcomes
    | ok found m₁ =>
      rw [hchoice] at hcomes
      refine arm_shuns h (fun n hn => ?_) hl hcomes
      cases found with
      | none => exact List.mem_append_right _ (Option.mem_toList.mpr hn)
      | some c =>
        obtain rfl := Option.some.inj hn
        obtain ⟨_, _, -, hselect⟩ := Outcome.andThen_ok.mp hchoice
        exact List.mem_append_left _ (select_mem hselect)

/-- But for the labels, the same labels lead into both nodes, and they settle alike wherever both can
be entered; they shun the labels there. -/
structure AlikeBut (ω : Type) (hidden : LabelId → Prop) (n n' : Node) : Prop where
  defines : ∀ l, ¬hidden l → n'.defines l = n.defines l
  shuns : ∀ d (m : Machine ω) l v m', hidden l → n.Has d → n'.Has d →
    ¬(n.settling d m).Comes (.ok (.jump l v) m')
  comes : ∀ d (m : Machine ω) r, n.Has d → n'.Has d →
    ((n.settling d m).Comes r ↔ (n'.settling d m).Comes r)

namespace AlikeBut

theorem refl (h : n.Shuns ω hidden) : n.AlikeBut ω hidden n where
  defines _ _ := rfl
  shuns _ _ _ _ _ hl _ _ := h.settling hl
  comes _ _ _ _ _ := Iff.rfl

theorem symm (h : n.AlikeBut ω hidden n') : n'.AlikeBut ω hidden n where
  defines l hl := (h.defines l hl).symm
  shuns d m l v m' hl hd hd' hjump :=
    h.shuns d m l v m' hl hd' hd ((h.comes d m _ hd' hd).mpr hjump)
  comes d m r hd hd' := (h.comes d m r hd' hd).symm

/-- Switches with such bodies come to the same in their arms, if the labels that both know lead into
bodies that are alike. -/
theorem arms {bodies bodies' : List Node} (hapart : Apart bodies) (hapart' : Apart bodies')
    (hfind : ∀ l, ¬hidden l → Option.Rel (AlikeBut ω hidden) (bodies.find? (·.defines l))
      (bodies'.find? (·.defines l)))
    (h : n.AlikeBut ω hidden n') (hn : n ∈ bodies) (hn' : n' ∈ bodies') (hd : n.Has d)
    (hd' : n'.Has d) (hr : (Turn.call ⟨n, d, m⟩ (.arms bodies)).Comes r) :
    (Turn.call ⟨n', d, m⟩ (.arms bodies')).Comes r := by
  obtain ⟨k, hk⟩ := hr
  induction k using Nat.strong_induction_on generalizing n n' d m with
  | _ k ih =>
    obtain ⟨r₁, k₁, hsettles, hlt, hk₁⟩ := hk.settles (Waiting.arms_keeps hapart hn) hd
    obtain ⟨k', hk'⟩ := (h.comes d m r₁ hd hd').mp hsettles
    refine hk'.unsettles (Waiting.arms_keeps hapart' hn') hd' ?_
    cases r₁ with
    | error e m₁ => exact ⟨_, hk₁⟩
    | ok flow m₁ =>
      cases flow with
      | normal v | throw v => exact ⟨_, hk₁⟩
      | jump l v =>
        have hl : ¬hidden l := fun hl => h.shuns d m l v m₁ hl hd hd' hsettles
        have hbodies := hfind l hl
        dsimp only [Waiting.resume] at hk₁ ⊢
        cases hc : bodies.find? (·.defines l) with
        | none =>
          rw [hc] at hk₁ hbodies
          cases hc' : bodies'.find? (·.defines l) with
          | none => exact ⟨_, hk₁⟩
          | some c' =>
            rw [hc'] at hbodies
            cases hbodies
        | some c =>
          rw [hc] at hk₁ hbodies
          cases hc' : bodies'.find? (·.defines l) with
          | none =>
            rw [hc'] at hbodies
            cases hbodies
          | some c' =>
            rw [hc'] at hbodies
            cases hbodies with
            | some halike =>
              exact ih k₁ hlt halike (List.mem_of_find?_eq_some hc) (List.mem_of_find?_eq_some hc')
                (has_of_find? hc) (has_of_find? hc') hk₁

/-- The same of an arm that is entered from its start, if one is. -/
theorem arm_iff {bodies bodies' : List Node} (hapart : Apart bodies) (hapart' : Apart bodies')
    (hfind : ∀ l, ¬hidden l → Option.Rel (AlikeBut ω hidden) (bodies.find? (·.defines l))
      (bodies'.find? (·.defines l))) {o o' : Option Node}
    (ho : Option.Rel (fun n n' => n ∈ bodies ∧ n' ∈ bodies' ∧ n.AlikeBut ω hidden n') o o') :
    (Turn.arm bodies o none m).Comes r ↔ (Turn.arm bodies' o' none m).Comes r := by
  have hback : ∀ l, ¬hidden l → Option.Rel (AlikeBut ω hidden) (bodies'.find? (·.defines l))
      (bodies.find? (·.defines l)) := by
    intro l hl
    have hbodies := hfind l hl
    generalize bodies.find? (·.defines l) = c at hbodies ⊢
    generalize bodies'.find? (·.defines l) = c' at hbodies ⊢
    cases hbodies with
    | none => exact .none
    | some h => exact .some h.symm
  cases ho with
  | none => exact Iff.rfl
  | some h =>
    obtain ⟨hn, hn', halike⟩ := h
    exact ⟨arms hapart hapart' hfind halike hn hn' (has_none _) (has_none _),
      arms hapart' hapart hback halike.symm hn' hn (has_none _) (has_none _)⟩

end AlikeBut

/-! ## A mark that no statement knows of -/

section Marks

variable {fall : Label} {nodes rest : List Node} {locals : List Symbol} {last : Value}

theorem placeOf_marked (h : l ≠ fall.id) : placeOf l (.mark fall :: nodes) = placeOf l nodes := by
  have hmark : (mark fall).defines l = false := by simp [mark, defines, h.symm]
  rw [placeOf, placeOf, List.dropWhile_cons, hmark]
  rfl

/-- Statements that do not jump to a mark in front of them do without it. -/
theorem row_marked (h : ∀ n ∈ nodes, n.Shuns ω (· = fall.id)) (hrest : rest ⊆ nodes) :
    (Turn.row (.mark fall :: nodes) rest d last m).Comes r ↔
      (Turn.row nodes rest d last m).Comes r := by
  have same : ∀ k (rest : List Node) d last (m : Machine ω), rest ⊆ nodes →
      ((Turn.row (.mark fall :: nodes) rest d last m).Ends k r ↔
        (Turn.row nodes rest d last m).Ends k r) := by
    intro k
    induction k using Nat.strong_induction_on with
    | _ k ih =>
      intro rest d last m hrest
      cases rest with
      | nil => exact Iff.rfl
      | cons n rest =>
        obtain ⟨hn, hrest⟩ := List.cons_subset.mp hrest
        have later : ∀ k₁ r₁ k₂, (⟨n, d, m⟩ : Call ω).begin.Ends k₁ r₁ → k₂ < k →
            (((Waiting.row (.mark fall :: nodes) rest).resume r₁).Ends k₂ r ↔
              ((Waiting.row nodes rest).resume r₁).Ends k₂ r) := by
          intro k₁ r₁ k₂ inner hlt
          cases r₁ with
          | error e m₁ => exact Iff.rfl
          | ok flow m₁ =>
            cases flow with
            | normal v => exact ih k₂ hlt rest none v m₁ hrest
            | throw v => exact Iff.rfl
            | jump l v =>
              have hl : l ≠ fall.id := fun hl =>
                h n hn l v hl d m m₁ (yields_iff_comes.mpr ⟨k₁, inner⟩)
              dsimp only [Waiting.resume]
              rw [placeOf_marked hl]
              cases hplace : placeOf l nodes with
              | nil => exact Iff.rfl
              | cons n₁ place =>
                exact ih k₂ hlt _ _ _ m₁ (hplace ▸ placeOf_subset l nodes)
        constructor
        · intro hk
          cases hk with
          | call inner hlater => exact .call inner ((later _ _ _ inner (by omega)).mp hlater)
        · intro hk
          cases hk with
          | call inner hlater => exact .call inner ((later _ _ _ inner (by omega)).mpr hlater)
  exact exists_congr fun k => same k rest d last m hrest

theorem block_marked (h : ∀ n ∈ nodes, n.Shuns ω (· = fall.id))
    (hd : ∀ s, d = some s → s.target ≠ fall.id) :
    (⟨block locals (.mark fall :: nodes), d, m⟩ : Call ω).begin.Comes r ↔
      (⟨block locals nodes, d, m⟩ : Call ω).begin.Comes r := by
  cases d with
  | none =>
    refine Iff.trans ?_ (row_marked h (List.Subset.refl nodes))
    show (Turn.call ⟨.mark fall, none, m.declare locals⟩
      (.row (.mark fall :: nodes) nodes)).Comes r ↔ _
    rw [Turn.comes_call]
    simp only [mark, Call.begin, Turn.comes_done, exists_eq_left]
    exact Iff.rfl
  | some s =>
    dsimp only [Call.begin, opening]
    rw [placeOf_marked (hd s rfl)]
    exact row_marked h (placeOf_subset _ _)

end Marks

end Node

namespace Block

open Node

/-- No statement of the block ends with a jump to the label, and the label has no place there. -/
structure Ignores (ω : Type) (l : LabelId) (B : Block) : Prop where
  jumps : ∀ n ∈ B.nodes, n.Shuns ω (· = l)
  place : B.collapse.defines l = false

theorem ignores_empty (l : LabelId) : Ignores ω l .empty :=
  ⟨by simp [empty], rfl⟩

/-- A block that ignores a label is the same with the label marked in front. -/
theorem Ignores.cons_mark {fall : Label} {B : Block} (h : Ignores ω fall.id B) :
    (B.cons (.mark fall)).collapse.AlikeBut ω (· = fall.id) B.collapse := by
  have comes : ∀ d (m : Machine ω) r, (B.cons (.mark fall)).collapse.Has d → B.collapse.Has d →
      (((B.cons (.mark fall)).collapse.settling d m).Comes r ↔
          (B.collapse.settling d m).Comes r) := by
    intro d m r hd hd'
    have hne : ∀ s, d = some s → s.target ≠ fall.id := by
      intro s hs heq
      have hdefines := hd' s hs
      rw [heq, h.place] at hdefines
      cases hdefines
    have has : ∀ {C : Block}, C.collapse.Has d → C.toNode.Has d := fun {C} =>
      (C.collapse_alike (ω := ω)).forth.has
    calc ((B.cons (.mark fall)).collapse.settling d m).Comes r
        ↔ ((B.cons (.mark fall)).toNode.settling d m).Comes r :=
          ((B.cons (.mark fall)).collapse_alike).settling_iff hd
      _ ↔ (⟨(B.cons (.mark fall)).toNode, d, m⟩ : Call ω).begin.Comes r :=
          Turn.settling_iff (block_retains _ _).settled (has hd)
      _ ↔ (⟨B.toNode, d, m⟩ : Call ω).begin.Comes r := block_marked h.jumps hne
      _ ↔ (B.toNode.settling d m).Comes r :=
          (Turn.settling_iff (block_retains _ _).settled (has hd')).symm
      _ ↔ (B.collapse.settling d m).Comes r := (B.collapse_alike.settling_iff hd').symm
  refine ⟨fun l hl => ?_, fun d m l v m' hl hd hd' hjump => ?_, comes⟩
  · have hmark : (mark fall).defines l = false := by simp [mark, defines, Ne.symm hl]
    rw [Block.defines_collapse, Block.defines_collapse, Block.cons, List.any_cons, hmark,
      Bool.false_or]
  · exact (Shuns.collapse h.jumps).settling hl ((comes d m _ hd hd').mp hjump)

end Block

end StructuredFlow
