import StructuredFlow.Proofs.HiddenIterators

/-
  Loops over a collection. What such a loop is for is said without its iterator's steps: the
  statements of the body are executed once for each element, in order, with the variable set to the
  element; a jump to one of them goes on there in the same round, and any other way of leaving the
  body but its end and a `continue` ends the loop (`Stretches`, `Iterates`). The loop that a program
  has instead steps a cursor before each round and takes the element from it. It does the same, as
  nothing in the body gets hold of the cursor (`Node.loop_iterates`).
-/

namespace StructuredFlow

variable {ω : Type}

open Exec Outcome

/-! ## Elements -/

/-- The numbers of a range in their order: from the start on, up to the stop, which is not one of
them. -/
inductive Value.Counts (stop : Int32) : Int32 → List Value → Prop
  | finished {start} (reached : stop ≤ start) : Counts stop start []
  | counting {start items} (before : start < stop) (later : Counts stop (start + 1) items) :
      Counts stop start (.int start :: items)

/-- What the iterator of a range has to show. -/
theorem Value.counts_rangeItems (start stop : Int32) :
    Counts stop start (rangeItems start stop) := by
  induction hcount : (stop.toInt - start.toInt).toNat generalizing start with
  | zero =>
    have hreached : stop ≤ start := Int32.le_iff_toInt_le.mpr (by omega)
    rw [rangeItems, hcount]
    exact .finished hreached
  | succ n ih =>
    have hbefore : start < stop := Int32.lt_iff_toInt_lt.mpr (by omega)
    have hnext : (start + 1).toInt = start.toInt + 1 := by
      have hstop := stop.toInt_lt
      have hstart := start.le_toInt
      rw [Int32.toInt_add, Int32.toInt_one, Int.bmod_eq_of_le] <;> omega
    have hitems : rangeItems start stop = .int start :: rangeItems (start + 1) stop := by
      have hlater : (stop.toInt - (start + 1).toInt).toNat = n := by omega
      rw [rangeItems, rangeItems, hcount, hlater, List.range_succ_eq_map, List.map_cons,
        List.map_map, Int.natCast_zero, Int.add_zero, Int32.ofInt_toInt, hnext]
      congr 1
      refine List.map_congr_left fun k _ => ?_
      simp only [Function.comp, Int.natCast_succ]
      rw [Int.add_assoc, Int.add_comm 1]
    rw [hitems]
    exact .counting hbefore (ih (start + 1) (by omega))

/-- What the variable of a loop is set to for an element: the element, converted if the type of the
variable is not that of the elements. -/
def Value.Suits (element ty : Ty) (v w : Value) : Prop :=
  if ty = element then w = v else v.convert? ty = some w

/-! ## Statements -/

/-- Statements one after the other, as long as they end normally. -/
inductive Stretch : List Node → Option Descent → Value → Machine ω → Flow → Machine ω → Prop
  | finished {d last m} : Stretch [] d last m (.normal last) m
  | next {n rest d last m calls v m₁ flow m₂} (run : n.Runs d m calls (.normal v) m₁)
      (later : Stretch rest none v m₁ flow m₂) : Stretch (n :: rest) d last m flow m₂
  | stopped {n rest d last m calls flow m₁} (run : n.Runs d m calls flow m₁)
      (own : ∀ v, flow ≠ .normal v) : Stretch (n :: rest) d last m flow m₁

/-- Stretches of the statements of a body, until one ends otherwise than with a jump to a place
among them; such a jump goes on at its place. -/
inductive Stretches (body : List Node) :
    List Node → Option Descent → Value → Machine ω → Flow → Machine ω → Prop
  | last {place d v m flow m₁} (stretch : Stretch place d v m flow m₁)
      (leaves : ∀ l w, flow = .jump l w → placeOf l body = []) : Stretches body place d v m flow m₁
  | again {place d v m l w m₁ flow m₂} (stretch : Stretch place d v m (.jump l w) m₁)
      (inside : placeOf l body ≠ [])
      (later : Stretches body (placeOf l body) (some ⟨l, w⟩) .void m₁ flow m₂) :
      Stretches body place d v m flow m₂

section

variable {body place : List Node} {d : Option Descent} {v : Value} {m m' : Machine ω}
  {calls : List (Call ω)} {flow : Flow}

/-- Before what is done of a body comes a statement that ends normally. -/
theorem Stretches.cons {n : Node} {u : Value} {m₁ : Machine ω}
    (run : n.Runs d m calls (.normal u) m₁) (h : Stretches body place none u m₁ flow m') :
    Stretches body (n :: place) d v m flow m' := by
  cases h with
  | last stretch leaves => exact .last (.next run stretch) leaves
  | again stretch inside later => exact .again (.next run stretch) inside later

/-- A row of statements from a place on, with places for jumps in a body. -/
theorem Turn.Traces.stretches {row : List Node} (hrow : ∀ l, placeOf l row = placeOf l body)
    (h : (Turn.row row place d v m).Traces calls (.ok flow m')) :
    Stretches body place d v m flow m' := by
  induction hsize : calls.length using Nat.strong_induction_on generalizing place d v m calls with
  | _ size ih =>
    subst hsize
    cases place with
    | nil =>
      cases h
      exact .last .finished nofun
    | cons n place =>
      obtain ⟨calls₁, flow₁, m₁, calls₂, rfl, run, later⟩ := Turn.traces_call_iff.mp h
      have hshorter : calls₂.length < (calls₁ ++ calls₂).length := by
        have := run.length_pos
        rw [List.length_append]
        omega
      cases flow₁ with
      | normal u => exact (ih _ hshorter later rfl).cons run
      | throw w =>
        cases later
        exact .last (.stopped run nofun) nofun
      | jump l w =>
        dsimp only [Waiting.resume] at later
        rw [hrow l] at later
        cases hplace : placeOf l body with
        | nil =>
          rw [hplace] at later
          cases later
          refine .last (.stopped run nofun) fun l' w' hl => ?_
          cases hl
          exact hplace
        | cons n' place' =>
          rw [hplace] at later
          refine .again (.stopped run nofun) (hplace ▸ List.cons_ne_nil _ _) ?_
          exact hplace ▸ ih _ hshorter later rfl

/-- A jump that leaves a body leads to no place in it. -/
theorem Stretches.leaves {l : LabelId} {w : Option Value}
    (h : Stretches body place d v m (.jump l w) m') : placeOf l body = [] := by
  generalize hflow : Flow.jump l w = flow at h
  induction h with
  | last _ leaves => exact leaves l w hflow.symm
  | again _ _ _ ih => exact ih hflow

variable {Good : Machine ω → Prop} {Known : Heap → Value → Prop}

theorem Stretch.maintained (h : Stretch place d v m flow m') (regime : Regime Good Known)
    (hplace : ∀ n ∈ place, ∀ c ∈ n.subnodes, c.Maintains Good Known)
    (hd : Descent.Carries (Known m.heap) d) (hv : Known m.heap v) (hm : Good m) :
    Good m' ∧ flow.Carries (Known m'.heap) := by
  induction h with
  | finished => exact ⟨hm, hv⟩
  | next run _ ih =>
    obtain ⟨hn, hrest⟩ := List.forall_mem_cons.mp hplace
    obtain ⟨hm₁, hu⟩ := (run.maintained regime hn hd hm).1
    exact ih hrest (Descent.carries_none _) hu hm₁
  | stopped run _ =>
    exact (run.maintained regime (hplace _ List.mem_cons_self) hd hm).1

/-- The statements of a body keep together what the nodes in them keep. -/
theorem Stretches.maintained (h : Stretches body place d v m flow m') (regime : Regime Good Known)
    (hbody : ∀ n ∈ body, ∀ c ∈ n.subnodes, c.Maintains Good Known) (hplace : place ⊆ body)
    (hd : Descent.Carries (Known m.heap) d) (hv : Known m.heap v) (hm : Good m) :
    Good m' ∧ flow.Carries (Known m'.heap) := by
  induction h with
  | last stretch =>
    exact stretch.maintained regime (fun n hn => hbody n (hplace hn)) hd hv hm
  | again stretch _ _ ih =>
    obtain ⟨hm₁, hflow⟩ :=
      stretch.maintained regime (fun n hn => hbody n (hplace hn)) hd hv hm
    exact ih (placeOf_subset _ _) hflow.descent (regime.void _) hm₁

end

/-! ## Rounds -/

namespace Machine

/-- The machine with the cursor of the iterator one step on. -/
def advance (m : Machine ω) (id : CursorId) : Machine ω :=
  m.setCursor id (m.heap.cursor id).moveNext.2

theorem Walking.advance {holds : ω → CursorId → Prop} {id : CursorId} {x : SymbolId} {c : Cursor}
    {m : Machine ω} (hm : m.Walking holds id x c) :
    (m.advance id).Walking holds id x c.moveNext.2 :=
  { hm.toHides.setCursor (m.heap.cursor id).items_moveNext with
    has := hm.has
    made := by simpa [Machine.advance, Machine.setCursor, Heap.setCursor] using hm.made
    cursor := by
      rw [← hm.cursor]
      exact Heap.cursor_setCursor hm.made _ }

end Machine

section

variable (id : CursorId) (l : Loop) (item : Symbol) (element : Ty) (locals : List Symbol)
  (body : List Node)

/-- One round: the variable is set to the element, and the statements are executed. -/
def Round (v : Value) (m : Machine ω) (flow : Flow) (m' : Machine ω) : Prop :=
  ∃ w, v.Suits element item.ty w ∧
    Stretches body body none .void (((m.advance id).declare locals).assign item w) flow m'

/-- The loop over the elements: a round for each of them in order, until there are no more or a
round ends otherwise than at its end or with a jump for the next one. A jump for the end of the loop
ends it normally; with an exception, and with any other jump, it ends as the round does. -/
inductive Iterates : List Value → Machine ω → Flow → Machine ω → Prop
  | exhausted {m} : Iterates [] m (.normal .void) (m.advance id)
  | completed {v vs m u m₁ flow m₂} (round : Round id item element locals body v m (.normal u) m₁)
      (later : Iterates vs m₁ flow m₂) : Iterates (v :: vs) m flow m₂
  | continued {v vs m u m₁ flow m₂}
      (round : Round id item element locals body v m (.jump l.next.id u) m₁)
      (later : Iterates vs m₁ flow m₂) : Iterates (v :: vs) m flow m₂
  | left {v vs m u m₁} (round : Round id item element locals body v m (.jump l.leave.id u) m₁) :
      Iterates (v :: vs) m (.normal .void) m₁
  | jumped {v vs m target u m₁}
      (round : Round id item element locals body v m (.jump target u) m₁)
      (elsewhere : target ≠ l.leave.id ∧ target ≠ l.next.id) :
      Iterates (v :: vs) m (.jump target u) m₁
  | raised {v vs m exception m₁}
      (round : Round id item element locals body v m (.throw exception) m₁) :
      Iterates (v :: vs) m (.throw exception) m₁

end

/-! ## The loop of a program -/

section

variable {holds : ω → CursorId → Prop} {id : CursorId} {iterator item : Symbol} {l : Loop}
  {element : Ty} {locals : List Symbol} {body : List Node} {c : Cursor} {m m' : Machine ω}
  {calls : List (Call ω)} {flow : Flow}

theorem Expr.eval_moveNext (h : m.Has iterator.id (.iterator id)) :
    (intrinsic .moveNext [.var iterator]).eval m =
      .ok (.bool (m.heap.cursor id).moveNext.1) (m.advance id) :=
  andThen_ok.mpr ⟨[.iterator id], m, andThen_ok.mpr ⟨_, m, Node.eval_var h, rfl⟩, rfl⟩

/-- Taking the element that the iterator stands at changes nothing, and raises nothing. -/
theorem Expr.eval_currentOf (h : m.Has iterator.id (.iterator id)) {v : Value}
    (hv : (m.heap.cursor id).current = some v) (ty : Ty) :
    (∀ w m', (Builder.currentOf iterator element ty).eval m = .ok w m' →
        v.Suits element ty w ∧ m' = m) ∧
      ∀ w m', (Builder.currentOf iterator element ty).eval m ≠ .error (.thrown w) m' := by
  have hcurrent : (intrinsic .current [.var iterator]).eval m = .ok v m := by
    refine andThen_ok.mpr ⟨[.iterator id], m, andThen_ok.mpr ⟨_, m, Node.eval_var h, rfl⟩, ?_⟩
    show Eval.current id m = .ok v m
    rw [Eval.current, get_andThen, hv]
    rfl
  unfold Builder.currentOf Value.Suits
  dsimp only
  split
  · refine ⟨fun w m' hw => ?_, fun w m' hw => ?_⟩
    · cases hcurrent.symm.trans hw
      exact ⟨rfl, rfl⟩
    · cases hcurrent.symm.trans hw
  · refine ⟨fun w m' hw => ?_, fun w m' hw => ?_⟩
    · obtain ⟨a, m₁, ha, hw⟩ := andThen_ok.mp hw
      cases hcurrent.symm.trans ha
      unfold Eval.convert at hw
      cases hv' : v.convert? ty with
      | none =>
        rw [hv'] at hw
        cases hw
      | some u =>
        rw [hv'] at hw
        cases hw
        exact ⟨rfl, rfl⟩
    · rcases andThen_error.mp hw with hw | ⟨a, m₁, ha, hw⟩
      · cases hcurrent.symm.trans hw
      · cases hcurrent.symm.trans ha
        unfold Eval.convert at hw
        cases hv' : v.convert? ty with
        | none =>
          rw [hv'] at hw
          cases hw
        | some u =>
          rw [hv'] at hw
          cases hw

/-- The body of the loop, executed while the cursor stands at an element, makes its round. -/
theorem Node.body_round {v : Value} (hm : (m.advance id).Has iterator.id (.iterator id))
    (hv : ((m.advance id).heap.cursor id).current = some v)
    (h : (block locals (assign item (Builder.currentOf iterator element item.ty) :: body)).Runs
      none (m.advance id) calls flow m') : Round id item element locals body v m flow m' := by
  cases h with
  | tail inner =>
    obtain ⟨calls₁, flow₁, m₁, calls₂, -, hassign, later⟩ := Turn.traces_call_iff.mp inner
    obtain ⟨hok, herror⟩ := Expr.eval_currentOf (hm.declare locals) hv item.ty
    rcases assign_runs hassign with ⟨w, m₂, hw, rfl, rfl⟩ | ⟨w, hw, -⟩
    · obtain ⟨hsuits, rfl⟩ := hok w m₂ hw
      have hrow : ∀ l, placeOf l (assign item (Builder.currentOf iterator element item.ty) :: body) =
          placeOf l body := fun l => rfl
      exact ⟨w, hsuits, later.stretches hrow⟩
    · exact absurd hw (herror w m₁)

/-- What the test of the loop leads to: the body with the cursor one step on, or a jump for the end
of the loop. -/
theorem Node.test_runs {n : Node} (hsteps : l.condition = .intrinsic .moveNext [.var iterator])
    (hm : m.Has iterator.id (.iterator id))
    (h : (branch l.condition n (jump l.leave)).Runs none m calls flow m') :
    if (m.heap.cursor id).moveNext.1 then
      ∃ calls', n.Runs none (m.advance id) calls' flow m'
    else flow = .jump l.leave.id none ∧ m' = m.advance id := by
  cases h with
  | @tail _ calls _ inner =>
    have hbegin : (Call.begin ⟨branch l.condition n (jump l.leave), none, m⟩) =
        .tail ⟨if (m.heap.cursor id).moveNext.1 then n else jump l.leave, none, m.advance id⟩ := by
      rw [Call.begin, hsteps, Expr.eval_moveNext hm]
      rfl
    rw [hbegin] at inner
    split
    next hmoved =>
      rw [if_pos hmoved] at inner
      exact ⟨calls, inner⟩
    next hmoved =>
      rw [if_neg hmoved] at inner
      cases inner with
      | tail inner =>
        cases inner
        exact ⟨rfl, rfl⟩

/-- A jump with which a round ends does not lead into the body. -/
theorem Round.leaves {v : Value} {target : LabelId} {u : Option Value}
    (h : Round id item element locals body v m (.jump target u) m') :
    ∀ n ∈ body, n.defines target = false := by
  obtain ⟨w, -, hstretches⟩ := h
  exact placeOf_eq_nil_iff.mp hstretches.leaves

/-- A round leaves the cursor alone. -/
theorem Round.walking {v : Value} (h : Round id item element locals body v m flow m')
    (hitem : item.id ≠ iterator.id)
    (hbody : ∀ n ∈ body, ∀ c ∈ n.subnodes, c.Overlooks iterator.id) (hv : v.Lacks id)
    (hm : m.Walking holds id iterator.id c) : m'.Walking holds id iterator.id c.moveNext.2 := by
  obtain ⟨w, hsuits, hstretches⟩ := h
  have hw : w.Lacks id := by
    unfold Value.Suits at hsuits
    split at hsuits
    · exact hsuits ▸ hv
    · exact hv.convert? hsuits
  exact (hstretches.maintained Machine.Walking.regime (fun n hn c hc => (hbody n hn c hc).maintains)
    (List.Subset.refl _) (Descent.carries_none _) List.not_mem_nil
    ((hm.advance.declare locals).assign hitem hw)).1

/-- A loop that walks the elements which a cursor has still to show, while nothing in its body gets
hold of the cursor. -/
theorem Node.loop_iterates (hsteps : l.condition = .intrinsic .moveNext [.var iterator])
    (hitem : item.id ≠ iterator.id)
    (hbody : ∀ n ∈ body, ∀ c ∈ n.subnodes, c.Overlooks iterator.id)
    (hm : m.Walking holds id iterator.id c)
    (h : (ofLoop l (block locals
      (assign item (Builder.currentOf iterator element item.ty) :: body))).Runs none m calls flow
        m') : Iterates id l item element locals body c.pending m flow m' := by
  generalize hnode : block locals
    (assign item (Builder.currentOf iterator element item.ty) :: body) = n at h
  -- The induction is on what the loop does from the test of a round on.
  suffices hrounds : ∀ {calls : List (Call ω)} {m : Machine ω} {c : Cursor},
      m.Walking holds id iterator.id c →
      (Turn.call ⟨branch l.condition n (jump l.leave), none, m⟩
        (.rounds (branch l.condition n (jump l.leave)) l.leave l.next)).Traces calls (.ok flow m') →
      Iterates id l item element locals body c.pending m flow m' by
    cases h with
    | tail inner => exact hrounds hm inner
  intro calls m c hm h
  induction hsize : calls.length using Nat.strong_induction_on generalizing calls m c with
  | _ size ih =>
    subst hsize
    obtain ⟨calls₁, flow₁, m₁, calls₂, rfl, test, later⟩ := Turn.traces_call_iff.mp h
    have hshorter : calls₂.length < (calls₁ ++ calls₂).length := by
      have := test.length_pos
      rw [List.length_append]
      omega
    have houtcome := test_runs hsteps hm.has test
    rw [hm.cursor] at houtcome
    cases hpending : c.pending with
    | nil =>
      rw [(Cursor.moveNext_nil hpending).1, if_neg Bool.false_ne_true] at houtcome
      obtain ⟨rfl, rfl⟩ := houtcome
      dsimp only [Waiting.resume] at later
      rw [if_pos rfl] at later
      cases later
      exact .exhausted
    | cons v vs =>
      obtain ⟨hmoved, hstands, hlater⟩ := Cursor.moveNext_cons hpending
      rw [hmoved, if_pos rfl] at houtcome
      obtain ⟨calls₃, run⟩ := houtcome
      subst hnode
      have hcurrent : ((m.advance id).heap.cursor id).current = some v := by
        rw [hm.advance.cursor, hstands]
      have round := body_round hm.advance.has hcurrent run
      have hv : v.Lacks id := by
        refine hm.items id v (List.mem_append_right _ ?_)
        rw [hm.cursor, hpending]
        exact List.mem_cons_self
      have hm₁ := round.walking hitem hbody hv hm
      cases flow₁ with
      | normal u => exact .completed round (hlater ▸ ih _ hshorter hm₁ later rfl)
      | throw exception =>
        cases later
        exact .raised round
      | jump target u =>
        dsimp only [Waiting.resume] at later
        split at later
        next hleave =>
          subst hleave
          cases later
          exact .left round
        next hleave =>
          split at later
          next hnext =>
            subst hnext
            exact .continued round (hlater ▸ ih _ hshorter hm₁ later rfl)
          next hnext =>
            have houtside : (branch l.condition (block locals
                (assign item (Builder.currentOf iterator element item.ty) :: body))
                (jump l.leave)).defines target = false := by
              show (false || definesAny target body || false) = false
              rw [Bool.or_false, Bool.false_or, definesAny_eq_any, List.any_eq_false]
              exact fun n hn => Bool.eq_false_iff.mp (round.leaves n hn)
            rw [houtside, if_neg Bool.false_ne_true] at later
            cases later
            exact .jumped round ⟨hleave, hnext⟩

end

end StructuredFlow
