import StructuredFlow.Proofs.RegionEvents

/-
  What a region does with its variable. Each time its block is executed there is a session: the
  producer's value is acquired, or the region is entered past the producer with what the variable
  still holds, and in the end that is disposed of, once. If nothing else assigns the variable, this
  is all that happens to it (`Node.withCleanup_sessions`).
-/

namespace StructuredFlow

variable {ω : Type}

open Exec Outcome

/-- A list of events in sessions, one after the other, from what the variable holds at first to what
it holds in the end. A session begins past the producer only if there is a way in. -/
inductive Sessions (wayIn : Prop) : Value → List RegionEvent → Value → Prop
  | none {held} : Sessions wayIn held [] held
  | acquired {held v es held'} (later : Sessions wayIn v es held') :
      Sessions wayIn held (.acquired v :: (v.disposals ++ es)) held'
  | reentered {held es held'} (entered : wayIn) (later : Sessions wayIn held es held') :
      Sessions wayIn held (.reentered :: (held.disposals ++ es)) held'

theorem Sessions.trans {wayIn : Prop} {u v w : Value} {es es' : List RegionEvent}
    (h : Sessions wayIn u es v) (h' : Sessions wayIn v es' w) : Sessions wayIn u (es ++ es') w := by
  induction h with
  | none => exact h'
  | acquired _ ih =>
    rw [List.cons_append, List.append_assoc]
    exact .acquired (ih h')
  | reentered entered _ ih =>
    rw [List.cons_append, List.append_assoc]
    exact .reentered entered (ih h')

theorem Value.reentered_not_mem_disposals (v : Value) : .reentered ∉ v.disposals := by
  cases v <;> simp [disposals]

/-- Without a way in every session begins with the producer. -/
theorem Sessions.not_reentered {wayIn : Prop} {u w : Value} {es : List RegionEvent}
    (h : Sessions wayIn u es w) (hno : ¬ wayIn) : .reentered ∉ es := by
  induction h with
  | none => exact List.not_mem_nil
  | @acquired held v es held' _ ih =>
    intro h
    rcases List.mem_cons.mp h with h | h
    · cases h
    · exact (List.mem_append.mp h).elim v.reentered_not_mem_disposals ih
  | reentered entered => exact absurd entered hno

/-- The value that is acquired, if the event is that. -/
def RegionEvent.acquired? : RegionEvent → Option Value
  | acquired v => some v
  | _ => none

theorem Value.acquired?_disposals (v : Value) :
    v.disposals.filterMap RegionEvent.acquired? = [] := by
  cases v <;> rfl

/-- If no session begins past the producer, each value that is acquired is disposed of before the
next one is acquired, and nothing else is. -/
theorem Sessions.eq_of_not_reentered {wayIn : Prop} {u w : Value} {es : List RegionEvent}
    (h : Sessions wayIn u es w) (hes : .reentered ∉ es) :
    es = (es.filterMap RegionEvent.acquired?).flatMap fun v => .acquired v :: v.disposals := by
  induction h with
  | none => rfl
  | @acquired held v es held' _ ih =>
    have hlater := ih fun h => hes (List.mem_cons_of_mem _ (List.mem_append_right _ h))
    have hhead : (RegionEvent.acquired v).acquired? = some v := rfl
    rw [List.filterMap_cons_some hhead, List.filterMap_append, v.acquired?_disposals,
      List.nil_append, List.flatMap_cons, ← hlater, List.cons_append]
  | reentered => exact absurd List.mem_cons_self hes

namespace Node

variable {s : Symbol} {producer : Expr} {body : Node} {d : Option Descent} {m m' : Machine ω}
  {calls : List (Call ω)} {flow : Flow}

theorem defines_disposal (s : Symbol) (l : LabelId) : (disposal s).defines l = false := by
  unfold disposal
  dsimp only
  split <;> rfl

theorem defines_guarded (body : Node) (s : Symbol) (l : LabelId) :
    (attempt body [] (some (disposal s))).defines l = body.defines l := by
  show (body.defines l || (false || (disposal s).defines l)) = _
  rw [defines_disposal, Bool.or_false, Bool.or_false]

/-- A tree of nodes that spare the variable has no event for it. -/
theorem spared_events (hbody : ∀ n ∈ body.subnodes, n.Spares s.id)
    (h : (Call.begin ⟨body, d, m⟩).Traces calls (.ok flow m')) :
    ((⟨body, d, m⟩ : Call ω) :: calls).flatMap (Call.events s) = [] ∧ m'.holds s = m.holds s := by
  have htail : (Turn.tail (⟨body, d, m⟩ : Call ω)).Among (· ∈ body.subnodes) s (m.holds s) :=
    .ofTail (mem_subnodes_iff.mpr (.inl rfl)) rfl
  refine Turn.Traces.made_up (S := fun u es w => es = [] ∧ w = u) (B := fun _ => False)
    (fun _ => ⟨rfl, rfl⟩) ?_ (fun n hn => .inr ⟨hbody n hn, fun c hc => ?_⟩) nofun htail (.tail h)
  · rintro u v w es es' ⟨rfl, rfl⟩ ⟨rfl, rfl⟩
    exact ⟨rfl, rfl⟩
  · exact mem_subnodes_trans hn (mem_subnodes_of_mem_children hc (mem_subnodes_iff.mpr (.inl rfl)))

theorem eval_var {v : Value} (h : m.env.get? s.id = some v) : (Expr.var s).eval m = .ok v m := by
  rw [Expr.eval, Eval.read, get_andThen, h]
  rfl

theorem eval_var_error (h : m.env.get? s.id = none) :
    (Expr.var s).eval m = .error (.unboundSymbol s) m := by
  rw [Expr.eval, Eval.read, get_andThen, h]
  rfl

/-- A part of an execution disposes of what the variable holds, and leaves the variable as it is. -/
structure Disposes (s : Symbol) (m : Machine ω) (calls : List (Call ω)) (m' : Machine ω) :
    Prop where
  events : calls.flatMap (Call.events s) = (m.holds s).disposals
  holds : m'.holds s = m.holds s

/-- The disposal of a value that a variable has is an event, unless the value is null: the machine logs
it. -/
theorem dispose_events {v : Value} (h : m.env.get? s.id = some v) (d : Option Descent) :
    Call.events s ⟨eval (.intrinsic .dispose [.var s]), d, m⟩ = (m.holds s).disposals := by
  have hholds : m.holds s = v := by rw [Machine.holds, h, Option.getD_some]
  have hoperands : Expr.evalAll [.var s] m = .ok [v] m := andThen_ok.mpr ⟨v, m, eval_var h, rfl⟩
  have heval {r : Value} {m' : Machine ω} (hr : Eval.dispose v m = .ok r m') :
      (Expr.intrinsic .dispose [.var s]).eval m = .ok r m' := andThen_ok.mpr ⟨_, _, hoperands, hr⟩
  rw [Call.events, if_pos rfl, hholds]
  cases v with
  | null =>
    rw [heval rfl]
    refine if_neg fun hlog => ?_
    have hsize := congrArg Array.size hlog
    rw [Array.size_push] at hsize
    omega
  | _ =>
    rw [heval rfl]
    exact if_pos rfl

/-- The disposal of what the variable holds, which there has to be. -/
theorem dispose_disposes
    (h : (Call.begin ⟨eval (.intrinsic .dispose [.var s]), d, m⟩).Traces calls (.ok flow m')) :
    Disposes s m (⟨eval (.intrinsic .dispose [.var s]), d, m⟩ :: calls) m' ∧
      ∀ l v, flow ≠ .jump l v := by
  have hquiet := Eval.closed_quiet.eval (ω := ω) (.intrinsic .dispose [.var s])
  cases hs : m.env.get? s.id with
  | none =>
    have herror : (Expr.intrinsic .dispose [.var s]).eval m = .error (.unboundSymbol s) m :=
      andThen_error.mpr (.inl (andThen_error.mpr (.inl (eval_var_error hs))))
    rcases Turn.Traces.of_reading h with ⟨a, m₁, hv, -⟩ | ⟨v, hv, -⟩
    · cases herror.symm.trans hv
    · cases herror.symm.trans hv
  | some v =>
    have hend : calls = [] ∧ m'.holds s = m.holds s ∧ ∀ l v, flow ≠ .jump l v := by
      rcases Turn.Traces.of_reading h with ⟨a, m₁, hv, hdone⟩ | ⟨v, hv, rfl, hcalls⟩
      · cases hdone
        exact ⟨rfl, (hquiet.ok hv).holds_eq, nofun⟩
      · exact ⟨hcalls, (hquiet.error hv).holds_eq, nofun⟩
    obtain ⟨rfl, hm', hflow⟩ := hend
    exact ⟨⟨(List.flatMap_singleton _ _).trans (dispose_events hs d), hm'⟩, hflow⟩

/-- The cleanup of a region disposes of what the variable holds. -/
theorem disposal_disposes (h : (Call.begin ⟨disposal s, none, m⟩).Traces calls (.ok flow m')) :
    Disposes s m (⟨disposal s, none, m⟩ :: calls) m' ∧ ∀ l v, flow ≠ .jump l v := by
  unfold disposal at h ⊢
  dsimp only at h ⊢
  split at h
  next hreference =>
    rw [if_pos hreference]
    cases hs : m.env.get? s.id with
    | none =>
      have herror : (Expr.binary .notEqual (.var s) (.null s.ty)).eval m =
          .error (.unboundSymbol s) m := andThen_error.mpr (.inl (eval_var_error hs))
      rcases Turn.Traces.of_reading h with ⟨a, m₁, hv, -⟩ | ⟨v, hv, -⟩
      · cases herror.symm.trans hv
      · cases herror.symm.trans hv
    | some v =>
      have htest : (Expr.binary .notEqual (.var s) (.null s.ty)).eval m =
          .ok (.bool (!(v == .null))) m :=
        andThen_ok.mpr ⟨v, m, eval_var hs, rfl⟩
      rcases Turn.Traces.of_reading h with ⟨a, m₁, hv, hbranch⟩ | ⟨v, hv, -⟩
      · cases htest.symm.trans hv
        cases hbranch with
        | tail inner =>
          by_cases hnull : v = .null
          · subst hnull
            cases inner
            exact ⟨⟨by rw [Machine.holds, hs]; rfl, rfl⟩, nofun⟩
          · have hpresent : (!(v == .null)) = true := by
              cases v <;> first | rfl | exact absurd rfl hnull
            rw [hpresent] at inner ⊢
            obtain ⟨hdisposes, hflow⟩ := dispose_disposes inner
            exact ⟨⟨hdisposes.events, hdisposes.holds⟩, hflow⟩
      · cases htest.symm.trans hv
  next hreference =>
    rw [if_neg hreference]
    exact dispose_disposes h

/-- The end of a region disposes of what the variable holds. -/
theorem clean_disposes {pending : Flow}
    (h : (Turn.clean (some (disposal s)) pending m).Traces calls (.ok flow m')) :
    Disposes s m calls m' ∧ ∀ l v, flow = .jump l v → pending = .jump l v := by
  cases h with
  | @call c w calls r₁ calls' r inner later =>
    cases r₁ with
    | error e m₁ => cases later
    | ok flow₁ m₁ =>
      obtain ⟨hdisposes, hflow⟩ := disposal_disposes inner
      cases flow₁ with
      | jump l v => exact absurd rfl (hflow l v)
      | normal v =>
        cases later
        exact ⟨(List.append_nil calls).symm ▸ hdisposes, fun _ _ h => h⟩
      | throw v =>
        cases later
        exact ⟨(List.append_nil calls).symm ▸ hdisposes, nofun⟩

/-- A region that is guarded by the disposal of the variable disposes of what it holds when it is
left, however often the body is entered again from inside. No jump to a place in the body leaves
it. -/
theorem region_disposes (hbody : ∀ n ∈ body.subnodes, n.Spares s.id)
    (h : (Turn.region body [] (some (disposal s)) d m).Traces calls (.ok flow m')) :
    Disposes s m calls m' ∧ ∀ l v, flow = .jump l v → body.defines l = false := by
  induction hsize : calls.length using Nat.strong_induction_on generalizing calls d m with
  | _ size ih =>
    subst hsize
    unfold Turn.region at h
    cases start : entrance body (some (disposal s)) d with
    | handler l =>
      rw [start] at h
      cases h
    | cleanup n =>
      obtain ⟨hn, _, -, -, hdefines⟩ := entrance_cleanup start
      obtain rfl := Option.some.inj hn
      rw [defines_disposal] at hdefines
      cases hdefines
    | body =>
      rw [start] at h
      cases h with
      | @call c w calls r₁ calls' r inner later =>
        cases r₁ with
        | error e m₁ => cases later
        | ok flow₁ m₁ =>
          obtain ⟨hevents, hm₁⟩ := spared_events hbody inner
          have hlater : Disposes s m₁ calls' m' ∧
              ∀ l v, flow = .jump l v → body.defines l = false := by
            cases flow₁ with
            | normal v => exact (clean_disposes later).imp_right fun h l v hl => nomatch h l v hl
            | throw v => exact (clean_disposes later).imp_right fun h l v hl => nomatch h l v hl
            | jump l v =>
              dsimp only [Waiting.resume, Turn.leaveRegion] at later
              split at later
              next =>
                refine ih calls'.length ?_ later rfl
                rw [List.length_cons, List.length_append]
                omega
              next houtside =>
                refine (clean_disposes later).imp_right fun h l' v' hl => ?_
                cases h l' v' hl
                rw [regionDefines, Bool.or_eq_true, Bool.or_eq_true, not_or, not_or] at houtside
                exact Bool.eq_false_iff.mpr houtside.1.1
          refine ⟨⟨?_, hlater.1.holds.trans hm₁⟩, hlater.2⟩
          rw [← List.cons_append, List.flatMap_append, hevents, List.nil_append, ← hm₁]
          exact hlater.1.events

/-- What remains of a region's block after the assignment. -/
theorem guarded_disposes (hbody : ∀ n ∈ body.subnodes, n.Spares s.id) (last : Value)
    (h : (Turn.row [assign s producer, attempt body [] (some (disposal s))]
      [attempt body [] (some (disposal s))] d last m).Traces calls (.ok flow m')) :
    Disposes s m calls m' := by
  cases h with
  | @call c w calls r₁ calls' r inner later =>
    cases r₁ with
    | error e m₁ => cases later
    | ok flow₁ m₁ =>
      obtain ⟨hdisposes, hflow⟩ := region_disposes hbody inner
      have hend : calls' = [] ∧ m' = m₁ := by
        cases flow₁ with
        | normal v =>
          cases later
          exact ⟨rfl, rfl⟩
        | throw v =>
          cases later
          exact ⟨rfl, rfl⟩
        | jump l v =>
          have hplace : placeOf l [assign s producer, attempt body [] (some (disposal s))] = [] :=
            placeOf_eq_nil_iff.mpr fun n hn => by
              rcases List.mem_cons.mp hn with rfl | hn
              · rfl
              · obtain rfl := List.mem_singleton.mp hn
                rw [defines_guarded]
                exact hflow l v rfl
          dsimp only [Waiting.resume] at later
          rw [hplace] at later
          cases later
          exact ⟨rfl, rfl⟩
      obtain ⟨rfl, rfl⟩ := hend
      refine ⟨?_, hdisposes.holds⟩
      rw [List.append_nil]
      exact hdisposes.events

/-! ## The block of a region -/

theorem holds_declare_self : (m.declare [s]).holds s = m.holds s :=
  Machine.holds_declare fun _ hx _ => List.mem_singleton.mp hx

/-- The labels that can be sought in the block are those in the body. -/
theorem opening_guarded (s : Symbol) (producer : Expr) (body : Node) (x : Descent) :
    opening [assign s producer, attempt body [] (some (disposal s))] (some x) =
      if body.defines x.target then [attempt body [] (some (disposal s))] else [] := by
  by_cases hx : body.defines x.target = true <;>
    simp [opening, placeOf, List.dropWhile, defines, defines_disposal, hx]

theorem events_entered (s : Symbol) (producer : Expr) (body : Node) (x : Descent)
    (m : Machine ω) : Call.events s ⟨withCleanup s producer body, some x, m⟩ =
      if body.defines x.target then [.reentered] else [] := by
  have hdefines : (withCleanup s producer body).defines x.target = body.defines x.target := by
    show (false || ((attempt body [] (some (disposal s))).defines x.target || false)) = _
    rw [defines_guarded, Bool.or_false, Bool.false_or]
  have hmine : [s].any (·.id == s.id) = true :=
    List.any_eq_true.mpr ⟨s, List.mem_singleton_self s, beq_self_eq_true _⟩
  show (if ([s].any (·.id == s.id) && (withCleanup s producer body).defines x.target) = true
    then [RegionEvent.reentered] else []) = _
  rw [hmine, Bool.true_and, hdefines]

/-- From its start, the region's block acquires what the producer gives. -/
theorem withCleanup_acquires (hbody : ∀ n ∈ body.subnodes, n.Spares s.id)
    (h : (Call.begin ⟨withCleanup s producer body, none, m⟩).Traces calls (.ok flow m')) :
    Sessions (∃ l, body.defines l = true) (m.holds s)
      (((⟨withCleanup s producer body, none, m⟩ : Call ω) :: calls).flatMap (Call.events s))
      (m'.holds s) := by
  cases h with
  | @call c w calls r₁ calls' r inner later =>
    cases r₁ with
    | error e m₁ => cases later
    | ok flow₁ m₁ =>
      show Sessions _ _ ([] ++ (Call.events s _ ++ (calls ++ calls').flatMap _)) _
      rcases Turn.Traces.of_reading inner with ⟨v, m₂, hv, hdone⟩ | ⟨v, hv, rfl, rfl⟩
      · cases hdone
        have hdisposes := guarded_disposes hbody .void later
        have hholds : (m₂.assign s v).holds s = v := Machine.holds_assign s v
        rw [Call.events, if_pos rfl, hv, List.nil_append, List.nil_append, hdisposes.events,
          hdisposes.holds, hholds, ← List.append_nil v.disposals]
        exact .acquired .none
      · cases later
        have hm₁ : m'.holds s = m.holds s :=
          (((Eval.closed_quiet.eval producer).error hv).holds_eq).trans holds_declare_self
        rw [Call.events, if_pos rfl, hv, hm₁]
        exact .none

/-- On the way to a place in it, the region's block is entered past the producer. -/
theorem withCleanup_entered (hbody : ∀ n ∈ body.subnodes, n.Spares s.id) {x : Descent}
    (h : (Call.begin ⟨withCleanup s producer body, some x, m⟩).Traces calls (.ok flow m')) :
    Sessions (∃ l, body.defines l = true) (m.holds s)
      (((⟨withCleanup s producer body, some x, m⟩ : Call ω) :: calls).flatMap (Call.events s))
      (m'.holds s) := by
  replace h : (Turn.row [assign s producer, attempt body [] (some (disposal s))]
      (opening [assign s producer, attempt body [] (some (disposal s))] (some x)) (some x) .void
      (m.declare [s])).Traces calls (.ok flow m') := h
  rw [List.flatMap_cons, events_entered]
  rw [opening_guarded] at h
  by_cases hx : body.defines x.target = true
  · rw [if_pos hx] at h ⊢
    have hdisposes := guarded_disposes hbody .void h
    rw [hdisposes.events, hdisposes.holds, holds_declare_self,
      ← List.append_nil (m.holds s).disposals]
    exact .reentered ⟨x.target, hx⟩ .none
  · rw [if_neg hx] at h ⊢
    cases h
    rw [holds_declare_self]
    exact .none

/-- An execution of a region's block is a session. The labels in the body are the ways in. -/
theorem withCleanup_sessions (hbody : ∀ n ∈ body.subnodes, n.Spares s.id)
    (h : (Call.begin ⟨withCleanup s producer body, d, m⟩).Traces calls (.ok flow m')) :
    Sessions (∃ l, body.defines l = true) (m.holds s)
      (((⟨withCleanup s producer body, d, m⟩ : Call ω) :: calls).flatMap (Call.events s))
      (m'.holds s) := by
  cases d with
  | none => exact withCleanup_acquires hbody h
  | some x => exact withCleanup_entered hbody h

end Node

end StructuredFlow
