import StructuredFlow.Proofs.TurnsFollowed

/-
  When one node can stand for another. A jump into a node that comes out of it is not the end:
  what is around the node enters it again. So nodes are compared by what they come to as the only
  statement of a row, which takes such jumps (`Node.settling`), and a node emulates another one if
  it comes to whatever the other one comes to there (`Node.Emulates`). A waiting node that takes
  the jumps back into the node below it cannot tell how often these come out
  (`Turn.Ends.settles`, `Turn.Ends.unsettles`); so turns that go on alike as long as what they call
  is emulated come to the same (`Turn.Matches.comes`).
-/

namespace StructuredFlow

variable {ω : Type}

/-- What a turn comes to, in whatever number of steps. -/
def Turn.Comes (t : Turn ω) (r : Report ω) : Prop :=
  ∃ k, t.Ends k r

namespace Node

/-- The node as the only statement of a row, which takes the jumps into the node. -/
def settling (n : Node) (d : Option Descent) (m : Machine ω) : Turn ω :=
  .call ⟨n, d, m⟩ (.row [n] [])

/-- The report is a jump into the node. -/
def Reenters (n : Node) (r : Report ω) : Prop :=
  ∃ l v m, r = .ok (.jump l v) m ∧ n.defines l = true

variable {n : Node} {r : Report ω} {l : LabelId} {v : Option Value} {m : Machine ω}

theorem resume_of_reenters (h : n.defines l = true) :
    (Waiting.row [n] []).resume (.ok (.jump l v) m) = n.settling (some ⟨l, v⟩) m := by
  have hplace : Exec.placeOf l [n] = [n] := by simp [Exec.placeOf, h]
  dsimp only [Waiting.resume]
  rw [hplace]
  rfl

theorem resume_of_not_reenters (h : ¬ n.Reenters r) : (Waiting.row [n] []).resume r = .done r := by
  cases r with
  | error e m => rfl
  | ok flow m =>
    cases flow with
    | normal v => rfl
    | throw v => rfl
    | jump l v =>
      have hl : n.defines l = false := Bool.eq_false_iff.mpr fun hl => h ⟨l, v, m, rfl, hl⟩
      have hplace : Exec.placeOf l [n] = [] := by simp [Exec.placeOf, hl]
      dsimp only [Waiting.resume]
      rw [hplace]

/-- No jump into the node comes out of it. -/
def Retains (ω : Type) (n : Node) : Prop :=
  ∀ d (m : Machine ω) r, (⟨n, d, m⟩ : Call ω).begin.Comes r → ¬ n.Reenters r

/-- No jump into the node comes out of it if it is entered at its start or at a place that it has. -/
def Settled (ω : Type) (n : Node) : Prop :=
  ∀ d (m : Machine ω) r, n.Has d → (⟨n, d, m⟩ : Call ω).begin.Comes r → ¬ n.Reenters r

theorem Retains.settled (h : n.Retains ω) : n.Settled ω :=
  fun d m r _ => h d m r

end Node

open Node

/-- The waiting node enters the node below it again when a jump into that node comes out. -/
def Waiting.Keeps (ω : Type) (w : Waiting) (n : Node) : Prop :=
  ∀ d (m : Machine ω) l v m', n.Has d → (⟨n, d, m⟩ : Call ω).begin.Comes (.ok (.jump l v) m') →
    n.defines l = true → w.resume (.ok (.jump l v) m') = .call ⟨n, some ⟨l, v⟩, m'⟩ w

theorem Node.Settled.keeps {n : Node} (h : n.Settled ω) (w : Waiting) : w.Keeps ω n :=
  fun d m l v m' hd hjump hl => absurd ⟨l, v, m', rfl, hl⟩ (h d m _ hd hjump)

namespace Turn

variable {n : Node} {w : Waiting} {d : Option Descent} {m : Machine ω} {k : Nat} {r r₁ : Report ω}

theorem Comes.call {c : Call ω} (h : c.begin.Comes r₁) (h' : (w.resume r₁).Comes r) :
    (Turn.call c w).Comes r := by
  obtain ⟨k, hk⟩ := h
  obtain ⟨k', hk'⟩ := h'
  exact ⟨_, .call hk hk'⟩

/-- What a node that keeps the node below comes to, it comes to from where that one settles. -/
theorem Ends.settles (hw : w.Keeps ω n) (hd : n.Has d) (h : (Turn.call ⟨n, d, m⟩ w).Ends k r) :
    ∃ r₁ k₁, (n.settling d m).Comes r₁ ∧ k₁ < k ∧ (w.resume r₁).Ends k₁ r := by
  induction k using Nat.strong_induction_on generalizing d m with
  | _ k ih =>
    cases h with
    | @call _ _ k₁ r₁ k₂ _ inner later =>
      by_cases hr₁ : n.Reenters r₁
      · obtain ⟨l, v, m₁, rfl, hl⟩ := hr₁
        rw [hw d m l v m₁ hd ⟨k₁, inner⟩ hl] at later
        obtain ⟨r₂, k₃, hsettles, hlt, hk₃⟩ := ih k₂ (by omega) (has_some hl) later
        refine ⟨r₂, k₃, .call ⟨k₁, inner⟩ ?_, by omega, hk₃⟩
        rw [resume_of_reenters hl]
        exact hsettles
      · refine ⟨r₁, k₂, .call ⟨k₁, inner⟩ ?_, by omega, later⟩
        rw [resume_of_not_reenters hr₁]
        exact ⟨0, .done⟩

/-- And from where the node below settles, it comes to all that it comes to from there. -/
theorem Ends.unsettles (hw : w.Keeps ω n) (hd : n.Has d) (h : (n.settling d m).Ends k r₁)
    (h' : (w.resume r₁).Comes r) : (Turn.call ⟨n, d, m⟩ w).Comes r := by
  induction k using Nat.strong_induction_on generalizing d m with
  | _ k ih =>
    cases h with
    | @call _ _ k₁ r₂ k₂ _ inner later =>
      refine .call ⟨k₁, inner⟩ ?_
      by_cases hr₂ : n.Reenters r₂
      · obtain ⟨l, v, m₁, rfl, hl⟩ := hr₂
        rw [resume_of_reenters hl] at later
        rw [hw d m l v m₁ hd ⟨k₁, inner⟩ hl]
        exact ih k₂ (by omega) (has_some hl) later
      · rw [resume_of_not_reenters hr₂] at later
        cases later
        exact h'

/-- A node that lets out no jumps into it settles at once. -/
theorem settling_iff (h : n.Settled ω) (hd : n.Has d) :
    (n.settling d m).Comes r ↔ (⟨n, d, m⟩ : Call ω).begin.Comes r := by
  constructor
  · rintro ⟨_, hr⟩
    cases hr with
    | call inner later =>
      rw [resume_of_not_reenters (h d m _ hd ⟨_, inner⟩)] at later
      cases later
      exact ⟨_, inner⟩
  · intro hr
    refine .call hr ?_
    rw [resume_of_not_reenters (h d m r hd hr)]
    exact ⟨0, .done⟩

end Turn

/-! ## Emulation -/

namespace Node

/-- A node emulates another one if the same labels lead into both, and it settles wherever the other
one does. -/
structure Emulates (ω : Type) (n' n : Node) : Prop where
  defines : ∀ l, n'.defines l = n.defines l
  comes : ∀ d (m : Machine ω) r, n.Has d → (n.settling d m).Comes r → (n'.settling d m).Comes r

namespace Emulates

variable {n n' n'' : Node}

theorem refl (n : Node) : n.Emulates ω n :=
  ⟨fun _ => rfl, fun _ _ _ _ h => h⟩

theorem has (h : n'.Emulates ω n) {d : Option Descent} (hd : n.Has d) : n'.Has d :=
  fun s hs => (h.defines _).trans (hd s hs)

theorem trans (h : n''.Emulates ω n') (h' : n'.Emulates ω n) : n''.Emulates ω n where
  defines l := (h.defines l).trans (h'.defines l)
  comes d m r hd hr := h.comes d m r (h'.has hd) (h'.comes d m r hd hr)

/-- A node that comes to whatever the other one comes to, jumps into it included. -/
theorem of_begin (hdefines : ∀ l, n'.defines l = n.defines l)
    (h : ∀ d (m : Machine ω) r, n.Has d → (⟨n, d, m⟩ : Call ω).begin.Comes r →
      (⟨n', d, m⟩ : Call ω).begin.Comes r) : n'.Emulates ω n := by
  refine ⟨hdefines, fun d m r hd hr => ?_⟩
  obtain ⟨k, hk⟩ := hr
  -- Both rows start their node again on the same jumps, each time with fewer steps left.
  induction k using Nat.strong_induction_on generalizing d m with
  | _ k ih =>
    cases hk with
    | @call _ _ k₁ r₁ k₂ _ inner later =>
      refine .call (h d m r₁ hd ⟨k₁, inner⟩) ?_
      by_cases hr₁ : n.Reenters r₁
      · obtain ⟨l, v, m₁, rfl, hl⟩ := hr₁
        rw [resume_of_reenters hl] at later
        rw [resume_of_reenters ((hdefines l).trans hl)]
        exact ih k₂ (by omega) _ m₁ (has_some hl) later
      · have hr₁' : ¬ n'.Reenters r₁ := by
          rintro ⟨l, v, m₁, rfl, hl⟩
          exact hr₁ ⟨l, v, m₁, rfl, (hdefines l).symm.trans hl⟩
        rw [resume_of_not_reenters hr₁] at later
        rw [resume_of_not_reenters hr₁']
        exact ⟨k₂, later⟩

/-- Nodes that let out no jumps into them come to the same by themselves. -/
theorem begin (h : n'.Emulates ω n) (hn : n.Settled ω) (hn' : n'.Settled ω) {d : Option Descent}
    {m : Machine ω} (hd : n.Has d) (hr : (⟨n, d, m⟩ : Call ω).begin.Comes r) :
    (⟨n', d, m⟩ : Call ω).begin.Comes r :=
  (Turn.settling_iff hn' (h.has hd)).mp (h.comes d m r hd ((Turn.settling_iff hn hd).mpr hr))

end Emulates

end Node

namespace Turn

/-- Two turns are at the same point of nodes that are alike up to the nodes they call: the one calls
what emulates what the other calls, both enter it again on the jumps into it, and they go on as
related turns. -/
inductive Matches (S : Turn ω → Turn ω → Prop) : Turn ω → Turn ω → Prop
  | done (r) : Matches S (.done r) (.done r)
  | tail {c c'} (h : ∀ r, c.begin.Comes r → c'.begin.Comes r) : Matches S (.tail c) (.tail c')
  | call {n n' d m w w'} (emulates : n'.Emulates ω n) (has : n.Has d) (keeps : w.Keeps ω n)
      (keeps' : w'.Keeps ω n') (later : ∀ r, S (w.resume r) (w'.resume r)) :
      Matches S (.call ⟨n, d, m⟩ w) (.call ⟨n', d, m⟩ w')

/-- Turns of a relation that only relates matching ones come to the same. -/
theorem Matches.comes {S : Turn ω → Turn ω → Prop} (hS : ∀ t t', S t t' → Matches S t t')
    {t t' : Turn ω} (h : S t t') {r : Report ω} (hr : t.Comes r) : t'.Comes r := by
  obtain ⟨k, hk⟩ := hr
  induction k using Nat.strong_induction_on generalizing t t' with
  | _ k ih =>
    cases hS t t' h with
    | done r₁ => exact ⟨k, hk⟩
    | tail same =>
      cases hk with
      | tail inner =>
        obtain ⟨k', hk'⟩ := same r ⟨_, inner⟩
        exact ⟨_, .tail hk'⟩
    | call emulates has keeps keeps' later =>
      obtain ⟨r₁, k₁, hsettles, hlt, hk₁⟩ := hk.settles keeps has
      obtain ⟨k', hk'⟩ := emulates.comes _ _ r₁ has hsettles
      exact hk'.unsettles keeps' (emulates.has has) (ih k₁ hlt (later r₁) hk₁)

end Turn

end StructuredFlow
