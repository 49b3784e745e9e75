import StructuredFlow.Proofs.NodeOutcomes

/-
  What loops with a test mean. `Loop.Means` says it without labels and places: the test is evaluated
  first; if it is false the loop ends, if it is true the body is executed and the test is
  evaluated again. The node of a loop means just this, from its start and from a place in its body
  (`Node.ofLoop_yields_iff`). A loop that is entered by a jump over the test to the first statement
  of its body means the same from the body on (`Node.enteredLoop_yields_iff`,
  `Node.rowYields_enteredLoop`).
-/

namespace StructuredFlow

variable {ω : Type}

open Exec

namespace Loop

/-- Where the execution of a loop stands: before its test, or before its body, which is entered at
its start or at a place in it. -/
inductive Point where
  | test
  | body (d : Option Descent)

/-- What the loop comes to from a point on. -/
inductive Means (l : Loop) (body : Node) : Point → Machine ω → Report ω → Prop
  | holds {m m₁ r} (test : l.condition.eval m = .ok (.bool true) m₁)
      (later : Means l body (.body none) m₁ r) : Means l body .test m r
  | fails {m m₁} (test : l.condition.eval m = .ok (.bool false) m₁) :
      Means l body .test m (.ok (.normal .void) m₁)
  | raises {m v m₁} (test : l.condition.eval m = .error (.thrown v) m₁) :
      Means l body .test m (.ok (.throw v) m₁)
  | stops {m e m₁} (test : l.condition.eval m = .error e m₁) (cause : ∀ v, e ≠ .thrown v) :
      Means l body .test m (.error e m₁)
  | untestable {m v m₁} (test : l.condition.eval m = .ok v m₁) (kind : ∀ b, v ≠ .bool b) :
      Means l body .test m (.error (.typeError (.test v)) m₁)
  | completes {d m v m₁ r} (run : body.Yields d m (.ok (.normal v) m₁))
      (later : Means l body .test m₁ r) : Means l body (.body d) m r
  | continues {d m v m₁ r} (run : body.Yields d m (.ok (.jump l.next.id v) m₁))
      (later : Means l body .test m₁ r) : Means l body (.body d) m r
  | breaks {d m v m₁} (run : body.Yields d m (.ok (.jump l.leave.id v) m₁)) :
      Means l body (.body d) m (.ok (.normal .void) m₁)
  | resumes {d m target v m₁ r} (run : body.Yields d m (.ok (.jump target v) m₁))
      (inside : body.defines target = true)
      (later : Means l body (.body (some ⟨target, v⟩)) m₁ r) : Means l body (.body d) m r
  | jumps {d m target v m₁} (run : body.Yields d m (.ok (.jump target v) m₁))
      (notLeave : target ≠ l.leave.id) (notNext : target ≠ l.next.id)
      (outside : body.defines target = false) :
      Means l body (.body d) m (.ok (.jump target v) m₁)
  | throws {d m v m₁} (run : body.Yields d m (.ok (.throw v) m₁)) :
      Means l body (.body d) m (.ok (.throw v) m₁)
  | aborts {d m e m₁} (run : body.Yields d m (.error e m₁)) :
      Means l body (.body d) m (.error e m₁)

/-- The labels of the loop are two, and neither of them has a place in the body. -/
structure Separate (l : Loop) (body : Node) : Prop where
  distinct : l.leave.id ≠ l.next.id
  leave : body.defines l.leave.id = false
  next : body.defines l.next.id = false

/-- The node that a round of the loop consists of. -/
def round (l : Loop) (body : Node) : Node :=
  .branch l.condition body (.jump l.leave)

/-- The turn at a point of the loop. -/
def turn (l : Loop) (body : Node) : Point → Machine ω → Turn ω
  | .test, m => .call ⟨l.round body, none, m⟩ (.rounds (l.round body) l.leave l.next)
  | .body d, m => .call ⟨body, d, m⟩ (.rounds (l.round body) l.leave l.next)

variable {l : Loop} {body : Node} {p : Point} {m : Machine ω} {r : Report ω}

theorem defines_round (l : Loop) (body : Node) (target : LabelId) :
    (l.round body).defines target = body.defines target :=
  Bool.or_false _

/-- What the loop does when its body has jumped. -/
theorem resume_jump (l : Loop) (body : Node) (target : LabelId) (v : Option Value)
    (m : Machine ω) :
    (target = l.leave.id ∧ (Waiting.rounds (l.round body) l.leave l.next).resume
        (.ok (.jump target v) m) = .done (.ok (.normal .void) m)) ∨
      (target = l.next.id ∧ (Waiting.rounds (l.round body) l.leave l.next).resume
        (.ok (.jump target v) m) = l.turn body .test m) ∨
      (body.defines target = true ∧ (Waiting.rounds (l.round body) l.leave l.next).resume
        (.ok (.jump target v) m) = .call ⟨l.round body, some ⟨target, v⟩, m⟩
          (.rounds (l.round body) l.leave l.next)) ∨
      ((target ≠ l.leave.id ∧ target ≠ l.next.id ∧ body.defines target = false) ∧
        (Waiting.rounds (l.round body) l.leave l.next).resume (.ok (.jump target v) m) =
          .done (.ok (.jump target v) m)) := by
  dsimp only [Waiting.resume]
  by_cases hleave : target = l.leave.id
  · exact .inl ⟨hleave, if_pos hleave⟩
  rw [if_neg hleave]
  by_cases hnext : target = l.next.id
  · exact .inr (.inl ⟨hnext, if_pos hnext⟩)
  rw [if_neg hnext, defines_round]
  cases hbody : body.defines target with
  | true => exact .inr (.inr (.inl ⟨rfl, rfl⟩))
  | false => exact .inr (.inr (.inr ⟨⟨hleave, hnext, rfl⟩, rfl⟩))

/-- A place in the body is looked for without the test. -/
theorem round_sought {s : Descent} (h : body.defines s.target = true) (m : Machine ω) :
    (⟨l.round body, some s, m⟩ : Call ω).begin = .tail ⟨body, some s, m⟩ := by
  rw [round, Call.begin, if_pos h]

/-- The test is passed over when a place in the body is sought. -/
theorem comes_sought {s : Descent} (h : body.defines s.target = true) :
    (Turn.call ⟨l.round body, some s, m⟩ (.rounds (l.round body) l.leave l.next)).Comes r ↔
      (l.turn body (.body (some s)) m).Comes r := by
  rw [turn, Turn.comes_call, Turn.comes_call]
  simp only [round_sought h, Turn.comes_tail]

/-- The test means what it is meant to if the body does, where it is true. -/
theorem means_of_round {k k' : Nat} {r₁ : Report ω}
    (inner : (⟨l.round body, none, m⟩ : Call ω).begin.Ends k r₁)
    (later : ((Waiting.rounds (l.round body) l.leave l.next).resume r₁).Ends k' r)
    (hbody : ∀ m₁, ∀ k₁ ≤ k + k', (l.turn body (.body none) m₁).Ends k₁ r →
      l.Means body (.body none) m₁ r) : l.Means body .test m r := by
  dsimp only [Call.begin, round] at inner
  cases htest : l.condition.eval m with
  | error e m₁ =>
    rw [htest] at inner
    obtain ⟨v, rfl, rfl⟩ | ⟨cause, rfl⟩ := Turn.comes_reading_error.mp ⟨k, inner⟩
    · cases later
      exact .raises htest
    · cases later
      exact .stops htest cause
  | ok v m₁ =>
    rw [htest] at inner
    cases v with
    | bool b =>
      cases inner with
      | @tail _ k₁ _ inner =>
        cases b with
        | true => exact .holds htest (hbody m₁ _ (by omega) (.call inner later))
        | false =>
          cases inner
          rw [Waiting.resume, if_pos rfl] at later
          cases later
          exact .fails htest
    | _ =>
      cases inner
      cases later
      exact .untestable htest (by simp)

/-- The body means what it is meant to if the loop does from the next point on. -/
theorem means_of_run {d : Option Descent} {k : Nat} {r₁ : Report ω} (run : body.Yields d m r₁)
    (later : ((Waiting.rounds (l.round body) l.leave l.next).resume r₁).Ends k r)
    (hnext : ∀ p m₁, ∀ k₁ ≤ k, (l.turn body p m₁).Ends k₁ r → l.Means body p m₁ r) :
    l.Means body (.body d) m r := by
  cases r₁ with
  | error e m₁ =>
    cases later
    exact .aborts run
  | ok flow m₁ =>
    cases flow with
    | normal v => exact .completes run (hnext .test m₁ k (Nat.le_refl k) later)
    | throw v =>
      cases later
      exact .throws run
    | jump target v =>
      rcases resume_jump l body target v m₁ with ⟨rfl, hresume⟩ | ⟨rfl, hresume⟩ |
        ⟨hinside, hresume⟩ | ⟨⟨hleave, hother, houtside⟩, hresume⟩
      · rw [hresume] at later
        cases later
        exact .breaks run
      · rw [hresume] at later
        exact .continues run (hnext .test m₁ k (Nat.le_refl k) later)
      · rw [hresume] at later
        refine .resumes run hinside ?_
        cases later with
        | call sought later =>
          rw [round_sought hinside] at sought
          cases sought with
          | tail inner => exact hnext _ m₁ _ (by omega) (.call inner later)
      · rw [hresume] at later
        cases later
        exact .jumps run hleave hother houtside

theorem means_of_ends {k : Nat} (h : (l.turn body p m).Ends k r) : l.Means body p m r := by
  induction k using Nat.strong_induction_on generalizing p m with
  | _ k ih =>
    cases p with
    | test =>
      cases h with
      | call inner later =>
        exact means_of_round inner later fun m₁ k₁ hk₁ => ih k₁ (by omega)
    | body d =>
      cases h with
      | call inner later =>
        have run := Node.yields_iff_comes.mpr ⟨_, inner⟩
        exact means_of_run run later fun p m₁ k₁ hk₁ => ih k₁ (by omega)

/-- A round that ends decides what the loop does next. -/
theorem comes_of_round {r₁ : Report ω} (h : (l.round body).Yields none m r₁)
    (later : ((Waiting.rounds (l.round body) l.leave l.next).resume r₁).Comes r) :
    (l.turn body .test m).Comes r :=
  .call (Node.yields_iff_comes.mp h) later

theorem comes_of_means (hl : l.Separate body) (h : l.Means body p m r) :
    (l.turn body p m).Comes r := by
  induction h with
  | holds test later ih =>
    obtain ⟨r₁, hbody, hlater⟩ := Turn.comes_call.mp ih
    refine comes_of_round (Node.branch_yields_iff.mpr ?_) hlater
    exact .inl ⟨_, test, Node.yields_iff_comes.mpr hbody⟩
  | @fails m m₁ test =>
    have hleave : (Node.jump l.leave).Yields none m₁ (.ok (.jump l.leave.id none) m₁) :=
      Node.yields_iff_comes.mpr ⟨0, .done⟩
    refine comes_of_round (Node.branch_yields_iff.mpr (.inr (.inl ⟨_, test, hleave⟩))) ?_
    rw [Waiting.resume, if_pos rfl]
    exact ⟨0, .done⟩
  | @raises m v m₁ test =>
    have hround : (l.round body).Yields none m (.ok (.throw v) m₁) :=
      Node.branch_yields_iff.mpr (.inr (.inr (.inl ⟨v, m₁, test, rfl⟩)))
    exact comes_of_round hround ⟨0, .done⟩
  | @stops m e m₁ test cause =>
    have hround : (l.round body).Yields none m (.error e m₁) :=
      Node.branch_yields_iff.mpr (.inr (.inr (.inr (.inl ⟨e, m₁, test, cause, rfl⟩))))
    exact comes_of_round hround ⟨0, .done⟩
  | @untestable m v m₁ test kind =>
    have hround : (l.round body).Yields none m (.error (.typeError (.test v)) m₁) :=
      Node.branch_yields_iff.mpr (.inr (.inr (.inr (.inr ⟨v, m₁, test, kind, rfl⟩))))
    exact comes_of_round hround ⟨0, .done⟩
  | completes run later ih => exact .call (Node.yields_iff_comes.mp run) ih
  | @continues d m v m₁ r run later ih =>
    refine .call (Node.yields_iff_comes.mp run) ?_
    rw [Waiting.resume, if_neg hl.distinct.symm, if_pos rfl]
    exact ih
  | breaks run =>
    refine .call (Node.yields_iff_comes.mp run) ?_
    rw [Waiting.resume, if_pos rfl]
    exact ⟨0, .done⟩
  | @resumes d m target v m₁ r run inside later ih =>
    refine .call (Node.yields_iff_comes.mp run) ?_
    have hleave : target ≠ l.leave.id := by
      rintro rfl
      exact absurd (inside.symm.trans hl.leave) (by decide)
    have hnext : target ≠ l.next.id := by
      rintro rfl
      exact absurd (inside.symm.trans hl.next) (by decide)
    rw [Waiting.resume, if_neg hleave, if_neg hnext, defines_round, if_pos inside]
    exact (comes_sought inside).mpr ih
  | @jumps d m target v m₁ run notLeave notNext outside =>
    refine .call (Node.yields_iff_comes.mp run) ?_
    rw [Waiting.resume, if_neg notLeave, if_neg notNext, defines_round, if_neg (by simp [outside])]
    exact ⟨0, .done⟩
  | throws run => exact .call (Node.yields_iff_comes.mp run) ⟨0, .done⟩
  | aborts run => exact .call (Node.yields_iff_comes.mp run) ⟨0, .done⟩

theorem comes_iff_means (hl : l.Separate body) :
    (l.turn body p m).Comes r ↔ l.Means body p m r :=
  ⟨fun h => h.elim fun _ => means_of_ends, comes_of_means hl⟩

end Loop

/-! ## The nodes of loops -/

namespace Node

variable {l : Loop} {body : Node} {entry : Label} {m : Machine ω} {r : Report ω}

/-- A loop means what it is meant to from its test on. -/
theorem ofLoop_yields_iff (hl : l.Separate body) :
    (ofLoop l body).Yields none m r ↔ l.Means body .test m r := by
  rw [yields_iff_comes, ← Loop.comes_iff_means hl]
  exact Iff.rfl

/-- From a place in its body, a loop means what it is meant to from there on. -/
theorem ofLoop_yields_sought (hl : l.Separate body) {s : Descent}
    (hs : body.defines s.target = true) :
    (ofLoop l body).Yields (some s) m r ↔ l.Means body (.body (some s)) m r := by
  rw [yields_iff_comes, ← Loop.comes_iff_means hl]
  exact Loop.comes_sought hs

/-- A jump over the test of a loop, and the loop. -/
def enteredLoop (entry : Label) (l : Loop) (body : Node) : Node :=
  .block [] [.jump entry, .ofLoop l body]

/-- The loop that a jump to the first statement of its body leads into. -/
theorem ofLoop_entered (hbegins : Begins (.mark entry) body) :
    (⟨ofLoop l body, some ⟨entry.id, none⟩, m⟩ : Call ω).begin.Comes r ↔
      (l.turn body (.body none) m).Comes r := by
  refine (Loop.comes_sought hbegins.defines).trans ?_
  rw [Loop.turn, Loop.turn, Turn.comes_call, Turn.comes_call]
  simp only [hbegins.comes_iff]

theorem enteredLoop_comes_iff (hbegins : Begins (.mark entry) body) :
    (⟨enteredLoop entry l body, none, m⟩ : Call ω).begin.Comes r ↔
      (⟨ofLoop l body, some ⟨entry.id, none⟩, m⟩ : Call ω).begin.Comes r := by
  let row : List Node := [.jump entry, ofLoop l body]
  have hplace : placeOf entry.id row = [ofLoop l body] := by
    simp [row, placeOf, jump, ofLoop, defines, hbegins.defines]
  have hentry : (Waiting.row row [ofLoop l body]).resume (.ok (.jump entry.id none) m) =
      .call ⟨ofLoop l body, some ⟨entry.id, none⟩, m⟩ (.row row []) :=
    Waiting.resume_row_jump hplace
  -- What comes out of the loop is not a jump back into it, and so it comes out of the block.
  have hlast : ∀ r₁, (⟨ofLoop l body, some ⟨entry.id, none⟩, m⟩ : Call ω).begin.Comes r₁ →
      (Waiting.row row []).resume r₁ = .done r₁ := by
    intro r₁ h
    cases r₁ with
    | error e m₁ => rfl
    | ok flow m₁ =>
      cases flow with
      | normal v | throw v => rfl
      | jump target v =>
        have hloop : (ofLoop l body).defines target = false := Bool.eq_false_iff.mpr fun hinside =>
          loop_retains _ _ _ _ _ _ h ⟨target, v, m₁, rfl, hinside⟩
        have hnone : placeOf target row = [] := by simp [row, placeOf, jump, defines, hloop]
        rw [Waiting.resume, hnone]
  show (Turn.call ⟨.jump entry, none, m⟩ (.row row [ofLoop l body])).Comes r ↔ _
  rw [Turn.comes_call]
  simp only [jump, Call.begin, Turn.comes_done, exists_eq_left, hentry, Turn.comes_call]
  constructor
  · rintro ⟨r₁, h, hr⟩
    rw [hlast r₁ h, Turn.comes_done] at hr
    exact hr ▸ h
  · intro h
    refine ⟨r, h, ?_⟩
    rw [hlast r h]
    exact ⟨0, .done⟩

/-- A loop that is entered behind its test means what it is meant to from its body on. -/
theorem enteredLoop_yields_iff (hl : l.Separate body) (hbegins : Begins (.mark entry) body) :
    (enteredLoop entry l body).Yields none m r ↔ l.Means body (.body none) m r := by
  rw [yields_iff_comes, enteredLoop_comes_iff hbegins, ofLoop_entered hbegins,
    Loop.comes_iff_means hl]

/-- Among other statements, the jump and the loop are one statement: what is in front of them and
behind them sees no more than that. -/
theorem rowYields_enteredLoop {nodes before rest : List Node} (hapart : Apart nodes)
    (hnodes : nodes = before ++ .jump entry :: ofLoop l body :: rest)
    (hbegins : Begins (.mark entry) body) :
    RowYields nodes (.jump entry :: ofLoop l body :: rest) none m r ↔
      RowYields nodes (enteredLoop entry l body :: rest) none m r := by
  have hdefines : (ofLoop l body).defines entry.id = true := by
    simp [ofLoop, defines, hbegins.defines]
  have hplace : placeOf entry.id nodes = ofLoop l body :: rest := by
    have hsplit : nodes = (before ++ [.jump entry]) ++ ofLoop l body :: rest := by
      rw [hnodes, List.append_assoc]
      rfl
    rw [hsplit] at hapart ⊢
    exact hapart.placeOf_eq hdefines
  have hentry : (Waiting.row nodes (ofLoop l body :: rest)).resume (.ok (.jump entry.id none) m) =
      .call ⟨ofLoop l body, some ⟨entry.id, none⟩, m⟩ (.row nodes rest) :=
    Waiting.resume_row_jump hplace
  rw [rowYields_iff_comes, rowYields_iff_comes, Turn.row, Turn.row, Turn.comes_call,
    Turn.comes_call]
  simp only [enteredLoop_comes_iff hbegins]
  simp only [jump, Call.begin, Turn.comes_done, exists_eq_left, hentry, Turn.comes_call]

end Node

end StructuredFlow
