import StructuredFlow.Proofs.HiddenLabels

/-
  What a switch means. `Switch.Means` says it without labels: the discriminant is evaluated once,
  then the match values in their order, up to the first one that equals it; what is entered then is
  the body of its group, or the default if that body is empty or nothing has matched. Further on,
  only jumps into the bodies lead from body to body (`Switch.Roams`). The node of a switch means
  just this (`Node.ofSwitch_yields_iff`), although an empty group jumps to a label in front of the
  default: no statement knows of that label, so it can be left out (`Node.AlikeBut`).
-/

namespace StructuredFlow

variable {ω : Type}

open Exec Node Outcome

/-! ## What a switch means -/

namespace Switch

section Scan

variable {β : Type}

/-- The match values in their order, each with what is selected if it equals the discriminant. -/
def tests (arms : List (Arm β)) : List (Expr × β) :=
  arms.flatMap fun a => a.values.map fun e => (e, a.body)

/-- Match values are evaluated one by one, up to the first that equals the discriminant or cannot be
evaluated. -/
inductive Scans (v : Value) : List (Expr × β) → Machine ω →
    EStateM.Result EvalError (Machine ω) (Option β) → Prop
  | missed {m} : Scans v [] m (.ok none m)
  | equals {e x rest m w m₁} (test : e.eval m = .ok w m₁) (equal : (w == v) = true) :
      Scans v ((e, x) :: rest) m (.ok (some x) m₁)
  | differs {e x rest m w m₁ found} (test : e.eval m = .ok w m₁) (differ : (w == v) = false)
      (later : Scans v rest m₁ found) : Scans v ((e, x) :: rest) m found
  | fails {e x rest m cause m₁} (test : e.eval m = .error cause m₁) :
      Scans v ((e, x) :: rest) m (.error cause m₁)

end Scan

/-- What is executed from a body on: jumps to a place in one of the bodies go on there, and every
other end is that of the whole. -/
inductive Roams (bodies : List Node) : Node → Option Descent → Machine ω → Report ω → Prop
  | ends {n d m r} (run : n.Yields d m r)
      (outside : ∀ l v m', r = .ok (.jump l v) m' → ∀ c ∈ bodies, c.defines l = false) :
      Roams bodies n d m r
  | moves {n d m l v m₁ c r} (run : n.Yields d m (.ok (.jump l v) m₁)) (body : c ∈ bodies)
      (place : c.defines l = true) (later : Roams bodies c (some ⟨l, v⟩) m₁ r) :
      Roams bodies n d m r

/-- What is entered is executed from its first statement; if there is nothing to enter the switch
ends. -/
inductive Enters (bodies : List Node) : Option Node → Machine ω → Report ω → Prop
  | nothing {m} : Enters bodies none m (.ok (.normal .void) m)
  | body {n m r} (run : Roams bodies n none m r) : Enters bodies (some n) m r

/-- The bodies that a jump may lead into. -/
def bodies (arms : List (Arm (Option Node))) (fallback : Option Node) : List Node :=
  arms.filterMap Arm.body ++ fallback.toList

/-- What a switch comes to. A group has no body to enter if it is empty; the fallback is the
default. -/
inductive Means (value : Expr) (arms : List (Arm (Option Node))) (fallback : Option Node)
    (m : Machine ω) : Report ω → Prop
  | enters {v m₁ found m₂ r} (discriminant : value.eval m = .ok v m₁)
      (scan : Scans v (tests arms) m₁ (.ok found m₂))
      (enter : Enters (bodies arms fallback) (found.join <|> fallback) m₂ r) :
      Means value arms fallback m r
  | raises {x m₁} (discriminant : value.eval m = .error (.thrown x) m₁) :
      Means value arms fallback m (.ok (.throw x) m₁)
  | stops {e m₁} (discriminant : value.eval m = .error e m₁) (cause : ∀ x, e ≠ .thrown x) :
      Means value arms fallback m (.error e m₁)
  | testRaises {v m₁ x m₂} (discriminant : value.eval m = .ok v m₁)
      (scan : Scans v (tests arms) m₁ (.error (.thrown x) m₂)) :
      Means value arms fallback m (.ok (.throw x) m₂)
  | testStops {v m₁ e m₂} (discriminant : value.eval m = .ok v m₁)
      (scan : Scans v (tests arms) m₁ (.error e m₂)) (cause : ∀ x, e ≠ .thrown x) :
      Means value arms fallback m (.error e m₂)

/-! ## Match values -/

section Scan

variable {β : Type}

/-- The match values, evaluated one by one. -/
def scan (v : Value) : List (Expr × β) → Eval ω (Option β)
  | [] => return none
  | (e, x) :: rest => do
    if (← e.eval) == v then
      return some x
    scan v rest

theorem scans_iff {v : Value} {rest : List (Expr × β)} {m : Machine ω}
    {found : EStateM.Result EvalError (Machine ω) (Option β)} :
    Scans v rest m found ↔ scan v rest m = found := by
  constructor
  · intro h
    induction h with
    | missed => rfl
    | equals test equal => exact (andThen_of_ok test).trans (ite_run.mpr (.inl ⟨equal, rfl⟩))
    | differs test differ _ ih =>
      exact (andThen_of_ok test).trans (ite_run.mpr (.inr ⟨by simp [differ], ih⟩))
    | fails test => exact andThen_error.mpr (.inl test)
  · rintro rfl
    induction rest generalizing m with
    | nil => exact .missed
    | cons p rest ih =>
      obtain ⟨e, x⟩ := p
      cases test : e.eval m with
      | error cause m₁ =>
        have hscan : scan v ((e, x) :: rest) m = .error cause m₁ := andThen_error.mpr (.inl test)
        rw [hscan]
        exact .fails test
      | ok w m₁ =>
        have hscan : scan v ((e, x) :: rest) m = _ := andThen_of_ok test
        rw [hscan]
        cases heq : w == v with
        | true => exact .equals test heq
        | false => exact .differs test heq ih

theorem scan_append (v : Value) (values : List Expr) (x : β) (rest : List (Expr × β)) :
    (scan v (values.map (fun e => (e, x)) ++ rest) : Eval ω (Option β)) =
      select.selects v values >>= fun found => if found then return some x else scan v rest := by
  induction values with
  | nil => rfl
  | cons e values ih =>
    rw [List.map_cons, List.cons_append, scan, select.selects, bind_assoc]
    refine bind_congr fun w => ?_
    split
    · rfl
    · exact ih

/-- A switch selects what the first match value that is equal stands with. -/
theorem select_eq (v : Value) (arms : List (Arm β)) (f : β → Node) :
    (select v (arms.map fun a => ⟨a.values, f a.body⟩) : Eval ω (Option Node)) =
      Option.map f <$> scan v (tests arms) := by
  induction arms with
  | nil => rfl
  | cons a arms ih =>
    have htests : tests (a :: arms) = a.values.map (fun e => (e, a.body)) ++ tests arms := rfl
    rw [htests, scan_append, List.map_cons, select, map_bind]
    refine bind_congr fun found => ?_
    split
    · rfl
    · exact ih

end Scan

/-! ## Bodies -/

section Bodies

variable {bodies : List Node} {n : Node} {o : Option Node} {d : Option Descent} {m : Machine ω}
  {r : Report ω}

theorem resume_outside
    (outside : ∀ l v m', r = .ok (.jump l v) m' → ∀ c ∈ bodies, c.defines l = false) :
    (Waiting.arms bodies).resume r = .done r := by
  cases r with
  | error e m' => rfl
  | ok flow m' =>
    cases flow with
    | normal v | throw v => rfl
    | jump l v =>
      have hnone : bodies.find? (·.defines l) = none :=
        List.find?_eq_none.mpr fun c hc => by simp [outside l v m' rfl c hc]
      rw [Waiting.resume, hnone]

theorem resume_inside (hapart : Apart bodies) {l : LabelId} {v : Option Value} {c : Node}
    (hc : c ∈ bodies) (hl : c.defines l = true) :
    (Waiting.arms bodies).resume (.ok (.jump l v) m) =
      .call ⟨c, some ⟨l, v⟩, m⟩ (.arms bodies) := by
  rw [Waiting.resume, hapart.find?_eq hc hl]
  rfl

/-- What is executed from a body on is what the switch comes to in its arms. -/
theorem roams_iff (hapart : Apart bodies) :
    Roams bodies n d m r ↔ (Turn.call ⟨n, d, m⟩ (.arms bodies)).Comes r := by
  constructor
  · intro h
    induction h with
    | ends run outside =>
      refine .call (yields_iff_comes.mp run) ?_
      rw [resume_outside outside]
      exact ⟨0, .done⟩
    | moves run body place _ ih =>
      refine .call (yields_iff_comes.mp run) ?_
      rw [resume_inside hapart body place]
      exact ih
  · rintro ⟨k, h⟩
    induction k using Nat.strong_induction_on generalizing n d m with
    | _ k ih =>
      cases h with
      | @call _ _ k₁ r₁ k₂ _ inner later =>
        have run : n.Yields d m r₁ := yields_iff_comes.mpr ⟨k₁, inner⟩
        by_cases hinside : ∃ l v m', r₁ = .ok (.jump l v) m' ∧ ∃ c ∈ bodies, c.defines l = true
        · obtain ⟨l, v, m', rfl, c, hc, hl⟩ := hinside
          rw [resume_inside hapart hc hl] at later
          exact .moves run hc hl (ih k₂ (by omega) later)
        · have outside : ∀ l v m', r₁ = .ok (.jump l v) m' → ∀ c ∈ bodies, c.defines l = false :=
            fun l v m' hr c hc => Bool.eq_false_iff.mpr fun hl => hinside ⟨l, v, m', hr, c, hc, hl⟩
          rw [resume_outside outside] at later
          cases later
          exact .ends run outside

theorem enters_iff (hapart : Apart bodies) :
    Enters bodies o m r ↔ (Turn.arm bodies o none m).Comes r := by
  cases o with
  | none =>
    rw [Turn.arm, Turn.comes_done]
    constructor
    · intro h
      cases h
      rfl
    · rintro rfl
      exact .nothing
  | some n =>
    rw [Turn.arm, ← roams_iff hapart]
    constructor
    · intro h
      cases h with
      | body run => exact run
    · exact .body

end Bodies

end Switch

/-! ## The nodes of switches -/

namespace Switch

variable {value : Expr} {arms : List (Arm (Option Node))} {otherwise : Node}
  {default fallback : Option Node} {m : Machine ω} {r : Report ω}

theorem Scans.mem {β : Type} {v : Value} {rest : List (Expr × β)} {m' : Machine ω} {x : β}
    (h : Scans v rest m (.ok (some x) m')) : ∃ e, (e, x) ∈ rest := by
  generalize hfound :
    (.ok (some x) m' : EStateM.Result EvalError (Machine ω) (Option β)) = found at h
  induction h with
  | missed => cases hfound
  | equals =>
    cases hfound
    exact ⟨_, List.mem_cons_self⟩
  | differs _ _ _ ih =>
    obtain ⟨e, he⟩ := ih hfound
    exact ⟨e, List.mem_cons_of_mem _ he⟩
  | fails => cases hfound

theorem Scans.arm {β : Type} {v : Value} {arms : List (Arm β)} {m' : Machine ω} {x : β}
    (h : Scans v (tests arms) m (.ok (some x) m')) : ∃ a ∈ arms, a.body = x := by
  obtain ⟨e, he⟩ := h.mem
  obtain ⟨a, ha, he⟩ := List.mem_flatMap.mp he
  obtain ⟨_, _, he⟩ := List.mem_map.mp he
  exact ⟨a, ha, (Prod.mk.inj he).2⟩

/-- The arms with something to do for those without a body. -/
def filled (otherwise : Node) (arms : List (Arm (Option Node))) : List (Arm Node) :=
  arms.map fun a => ⟨a.values, a.body.getD otherwise⟩

/-- A group, without a body if there is nothing in it. -/
def ofGroup (g : Arm Block) : Arm (Option Node) :=
  ⟨g.values, if g.body.isEmpty then none else some g.body.collapse⟩

theorem filled_cons (a : Arm (Option Node)) :
    (filled otherwise (a :: arms)).map Arm.body =
      a.body.getD otherwise :: (filled otherwise arms).map Arm.body :=
  rfl

/-- Labels do not lead into arms without a body. -/
theorem find?_filled (hotherwise : ∀ l, otherwise.defines l = false) (l : LabelId) :
    ((filled otherwise arms).map Arm.body).find? (·.defines l) =
      (arms.filterMap Arm.body).find? (·.defines l) := by
  induction arms with
  | nil => rfl
  | cons a arms ih =>
    obtain ⟨values, body⟩ := a
    rw [filled_cons, List.find?_cons]
    cases body with
    | none => simp [hotherwise, ih]
    | some n => simp [List.find?_cons, ih]

theorem filterMap_sublist (otherwise : Node) (arms : List (Arm (Option Node))) :
    (arms.filterMap Arm.body).Sublist ((filled otherwise arms).map Arm.body) := by
  induction arms with
  | nil => exact .slnil
  | cons a arms ih =>
    obtain ⟨values, body⟩ := a
    rw [filled_cons]
    cases body with
    | none => exact ih.cons _
    | some n => exact ih.cons_cons n

end Switch

namespace Node

section Switch

variable {value : Expr} {arms : List (Arm (Option Node))} {otherwise : Node}
  {default fallback : Option Node} {hidden : LabelId → Prop} {m : Machine ω} {r : Report ω}

/-- A label that the bodies may jump to leads into the same body, with the default for the
fallback. -/
theorem find?_children (value : Expr) (hotherwise : ∀ l, otherwise.defines l = false)
    (harms : ∀ c ∈ arms.filterMap Arm.body, c.Shuns ω hidden)
    (hdefault : Option.Rel (AlikeBut ω hidden) default fallback) {l : LabelId} (hl : ¬hidden l) :
    Option.Rel (AlikeBut ω hidden)
      ((switch value (Switch.filled otherwise arms) default).children.find? (·.defines l))
      ((Switch.bodies arms fallback).find? (·.defines l)) := by
  show Option.Rel _ (((Switch.filled otherwise arms).map Arm.body ++ default.toList).find? _)
    ((arms.filterMap Arm.body ++ fallback.toList).find? _)
  rw [List.find?_append, List.find?_append, Switch.find?_filled hotherwise]
  cases hc : (arms.filterMap Arm.body).find? (·.defines l) with
  | some c => exact .some (.refl (harms c (List.mem_of_find?_eq_some hc)))
  | none =>
    rw [Option.none_or, Option.none_or]
    cases hdefault with
    | none => exact .none
    | @some c c' h =>
      rw [Option.toList_some, Option.toList_some, List.find?_singleton, List.find?_singleton,
        h.defines l hl]
      split
      · exact .some h
      · exact .none

variable (hapart : Apart (switch value (Switch.filled otherwise arms) default).children)
  (hapart' : Apart (Switch.bodies arms fallback))
  (hotherwise : ∀ l, otherwise.defines l = false)
  (harms : ∀ c ∈ arms.filterMap Arm.body, c.Shuns ω hidden)
  (hdefault : Option.Rel (AlikeBut ω hidden) default fallback)
  (hfalls : (∃ a ∈ arms, a.body = none) → ∀ (m : Machine ω) r,
    (Turn.arm (switch value (Switch.filled otherwise arms) default).children
      (some otherwise) none m).Comes r ↔
    (Turn.arm (switch value (Switch.filled otherwise arms) default).children
      default none m).Comes r)
include hapart hapart' hotherwise harms hdefault hfalls

/-- What is entered after the match values means what it is meant to. -/
theorem arm_comes_iff {found : Option (Option Node)}
    (hfound : ∀ x, found = some x → ∃ a ∈ arms, a.body = x) :
    (Turn.arm (switch value (Switch.filled otherwise arms) default).children
      (found.map (·.getD otherwise) <|> default) none m).Comes r ↔
      Switch.Enters (Switch.bodies arms fallback) (found.join <|> fallback) m r := by
  rw [Switch.enters_iff hapart']
  have hfind := fun l hl => find?_children value hotherwise harms hdefault (l := l) hl
  have hfallback : ∀ m : Machine ω,
      (Turn.arm (switch value (Switch.filled otherwise arms) default).children
        default none m).Comes r ↔
      (Turn.arm (Switch.bodies arms fallback) fallback none m).Comes r := by
    refine fun m => AlikeBut.arm_iff hapart hapart' hfind ?_
    cases hdefault with
    | none => exact .none
    | some h =>
      refine .some ⟨List.mem_append_right _ (List.mem_singleton_self _), ?_, h⟩
      exact List.mem_append_right _ (List.mem_singleton_self _)
  cases found with
  | none => exact hfallback m
  | some x =>
    obtain ⟨a, ha, hbody⟩ := hfound x rfl
    cases x with
    | none => exact (hfalls ⟨a, ha, hbody⟩ m r).trans (hfallback m)
    | some c =>
      have hc : c ∈ arms.filterMap Arm.body := List.mem_filterMap.mpr ⟨a, ha, hbody⟩
      refine AlikeBut.arm_iff hapart hapart' hfind (.some ⟨?_, ?_, .refl (harms c hc)⟩)
      · exact List.mem_append_left _ ((Switch.filterMap_sublist otherwise arms).mem hc)
      · exact List.mem_append_left _ hc

/-- A switch means what it is meant to, if its default is the fallback but for labels that nothing
jumps to, and what stands in for a missing body comes to what the default does. -/
theorem switch_yields_iff :
    (switch value (Switch.filled otherwise arms) default).Yields none m r ↔
      Switch.Means value arms fallback m r := by
  have henters : ∀ (m : Machine ω) r (found : Option (Option Node)),
      (∀ x, found = some x → ∃ a ∈ arms, a.body = x) → _ := fun m r found hfound =>
    arm_comes_iff (m := m) (r := r) hapart hapart' hotherwise harms hdefault hfalls hfound
  have hselect : ∀ v, (select v (Switch.filled otherwise arms) : Eval ω (Option Node)) =
      Option.map (·.getD otherwise) <$> Switch.scan v (Switch.tests arms) :=
    fun v => Switch.select_eq v arms (·.getD otherwise)
  rw [yields_iff_comes, Call.begin]
  simp only [hselect]
  constructor
  · intro h
    cases hvalue : value.eval m with
    | error e m₁ =>
      rw [andThen_error.mpr (.inl hvalue)] at h
      obtain ⟨x, rfl, rfl⟩ | ⟨cause, rfl⟩ := Turn.comes_reading_error.mp h
      · exact .raises hvalue
      · exact .stops hvalue cause
    | ok v m₁ =>
      rw [andThen_of_ok hvalue] at h
      cases hscan : Switch.scan v (Switch.tests arms) m₁ with
      | error e m₂ =>
        have hscans := Switch.scans_iff.mpr hscan
        rw [map_error.mpr hscan] at h
        obtain ⟨x, rfl, rfl⟩ | ⟨cause, rfl⟩ := Turn.comes_reading_error.mp h
        · exact .testRaises hvalue hscans
        · exact .testStops hvalue hscans cause
      | ok found m₂ =>
        have hscans := Switch.scans_iff.mpr hscan
        rw [map_ok.mpr ⟨found, hscan, rfl⟩] at h
        refine .enters hvalue hscans ((henters m₂ r found fun x hx => ?_).mp h)
        exact Switch.Scans.arm (hx ▸ hscans)
  · intro h
    cases h with
    | @enters v m₁ found m₂ r discriminant scan enter =>
      rw [andThen_of_ok discriminant, map_ok.mpr ⟨found, Switch.scans_iff.mp scan, rfl⟩]
      refine (henters m₂ r found fun x hx => ?_).mpr enter
      exact Switch.Scans.arm (hx ▸ scan)
    | raises discriminant =>
      rw [andThen_error.mpr (.inl discriminant)]
      exact Turn.comes_reading_error.mpr (.inl ⟨_, rfl, rfl⟩)
    | stops discriminant cause =>
      rw [andThen_error.mpr (.inl discriminant)]
      exact Turn.comes_reading_error.mpr (.inr ⟨cause, rfl⟩)
    | testRaises discriminant scan =>
      rw [andThen_of_ok discriminant, map_error.mpr (Switch.scans_iff.mp scan)]
      exact Turn.comes_reading_error.mpr (.inl ⟨_, rfl, rfl⟩)
    | testStops discriminant scan cause =>
      rw [andThen_of_ok discriminant, map_error.mpr (Switch.scans_iff.mp scan)]
      exact Turn.comes_reading_error.mpr (.inr ⟨cause, rfl⟩)

end Switch

section OfSwitch

variable {value : Expr} {groups : List (Arm Block)} {default : Option (Label × Block)}
  {m : Machine ω} {r : Report ω}

theorem map_arm (groups : List (Arm Block)) (otherwise : Node) :
    groups.map (ofSwitch.arm Block.collapse otherwise) =
      Switch.filled otherwise (groups.map Switch.ofGroup) := by
  rw [Switch.filled, List.map_map]
  refine List.map_congr_left fun g _ => ?_
  show Arm.mk _ _ = Arm.mk _ _
  congr 1
  cases h : g.body.isEmpty <;> simp [Switch.ofGroup, h]

/-- What an empty group jumps to is where the default begins. -/
theorem jump_entered {bodies : List Node} (hapart : Apart bodies) {fall : Label} {first : Node}
    (hfirst : first ∈ bodies) (hbegins : Begins (.mark fall) first) :
    (Turn.arm bodies (some (.jump fall)) none m).Comes r ↔
      (Turn.arm bodies (some first) none m).Comes r := by
  rw [Turn.arm, Turn.arm, Turn.comes_call]
  simp only [jump, Call.begin, Turn.comes_done, exists_eq_left]
  rw [Switch.resume_inside hapart hfirst hbegins.defines, Turn.comes_call, Turn.comes_call]
  simp only [hbegins.comes_iff]

/-- The node of a switch means what the switch does, if no body knows of the label that is put in
front of the default. -/
theorem ofSwitch_yields_iff
    (hapart : Apart (ofSwitch Block.collapse value groups default).children)
    (hignores : ∀ d ∈ default, ∀ B ∈ d.2 :: groups.map Arm.body, B.Ignores ω d.1.id) :
    (ofSwitch Block.collapse value groups default).Yields none m r ↔
      Switch.Means value (groups.map Switch.ofGroup) (default.map (·.2.collapse)) m r := by
  cases default with
  | none =>
    rw [ofSwitch, map_arm] at hapart ⊢
    have harms : ∀ c ∈ (groups.map Switch.ofGroup).filterMap Arm.body, c.Shuns ω fun _ => False :=
      fun _ _ _ _ hl => hl.elim
    refine switch_yields_iff hapart ?_ (fun _ => rfl) harms .none fun _ m r => ?_
    · exact hapart.sublist ((Switch.filterMap_sublist _ _).append (List.Sublist.refl _))
    · show (Turn.call ⟨nop, none, m⟩ _).Comes r ↔ _
      rw [Turn.comes_call]
      simp only [Call.begin, Turn.comes_done, exists_eq_left]
      exact Iff.rfl
  | some d =>
    obtain ⟨fall, D⟩ := d
    rw [ofSwitch, map_arm] at hapart ⊢
    have hD : D.Ignores ω fall.id := hignores _ rfl D List.mem_cons_self
    generalize hD' :
      (if groups.any (·.body.isEmpty) then D.cons (mark fall) else D) = D' at hapart ⊢
    have halike : D'.collapse.AlikeBut ω (· = fall.id) D.collapse := by
      rw [← hD']
      split
      · exact hD.cons_mark
      · exact .refl (Shuns.collapse hD.jumps)
    refine switch_yields_iff hapart ?_ (fun _ => rfl) (fun c hc => ?_) (.some halike) ?_
    · obtain ⟨hgroups, -, hdefault⟩ := List.pairwise_append.mp hapart
      have hsub := Switch.filterMap_sublist (jump fall) (groups.map Switch.ofGroup)
      refine List.pairwise_append.mpr ⟨hgroups.sublist hsub, List.pairwise_singleton _ _, ?_⟩
      intro c hc d hd l hl
      obtain rfl := List.mem_singleton.mp hd
      by_cases hfall : l = fall.id
      · exact hfall ▸ hD.place
      · rw [halike.defines l hfall]
        exact hdefault c (hsub.mem hc) _ (List.mem_singleton_self _) l hl
    · obtain ⟨a, ha, hbody⟩ := List.mem_filterMap.mp hc
      obtain ⟨g, hg, rfl⟩ := List.mem_map.mp ha
      obtain ⟨-, rfl⟩ : ¬g.body.isEmpty = true ∧ g.body.collapse = c := by
        simpa [Switch.ofGroup] using hbody
      refine Shuns.collapse (hignores _ rfl g.body ?_).jumps
      exact List.mem_cons_of_mem _ (List.mem_map_of_mem hg)
    · rintro ⟨a, ha, hbody⟩ m r
      obtain ⟨g, hg, rfl⟩ := List.mem_map.mp ha
      have hempty : g.body.isEmpty = true := by simpa [Switch.ofGroup] using hbody
      rw [if_pos (List.any_eq_true.mpr ⟨g, hg, hempty⟩)] at hD'
      refine jump_entered hapart ?_ (hD' ▸ begins_cons _ D)
      exact List.mem_append_right _ (List.mem_singleton_self _)

/-- The label that is put in front of the default is no label that the switch ends with a jump to. -/
theorem ofSwitch_shuns {fall : Label} {D : Block}
    (hignores : ∀ B ∈ D :: groups.map Arm.body, B.Ignores ω fall.id) :
    (ofSwitch Block.collapse value groups (some (fall, D))).Shuns ω (· = fall.id) := by
  rw [ofSwitch, map_arm]
  cases hany : groups.any (·.body.isEmpty) with
  | true =>
    -- The label has its place in the switch, which takes the jumps to it.
    rintro l v rfl d m m' hjump
    refine switch_retains _ _ _ d m _ (yields_iff_comes.mp hjump) ⟨_, v, m', rfl, ?_⟩
    refine defines_of_mem_children ?_ (Block.defines_cons_mark fall D)
    exact List.mem_append_right _ (List.mem_singleton_self _)
  | false =>
    refine Shuns.switch fun c hc => ?_
    rcases List.mem_append.mp hc with hc | hc
    · rw [Switch.filled, List.map_map, List.map_map] at hc
      obtain ⟨g, hg, rfl⟩ := List.mem_map.mp hc
      have hnonempty : g.body.isEmpty = false := by simpa using List.any_eq_false.mp hany g hg
      have hbody := Shuns.collapse
        (hignores g.body (List.mem_cons_of_mem _ (List.mem_map_of_mem hg))).jumps
      simpa [Switch.ofGroup, hnonempty] using hbody
    · obtain rfl := List.mem_singleton.mp hc
      exact Shuns.collapse (hignores D List.mem_cons_self).jumps

end OfSwitch

end Node

end StructuredFlow
