import StructuredFlow.Proofs.Calls

/-
  Every execution inside of an execution. A node calls the nodes below it (`Node.Calls`), they call
  those below them, and so on: these are the visits (`Visits`). A visit stands where the
  calls have led (`Visits.stands`), and for each handler around there is the exception that it was
  entered with. An execution that ends with a jump or stops for a cause has a visit that ends so by
  itself (`Visits.of_ending`).
-/

namespace StructuredFlow

variable {ω : Type}

namespace Node

/-- The expressions that a node evaluates itself. -/
def reads : Node → List Expr
  | eval e | assign _ e | throw e | branch e _ _ => [e]
  | goto _ value => value.toList
  | switch value arms _ => value :: arms.flatMap Arm.values
  | nop | block _ _ | loop _ _ _ | label _ _ | attempt _ _ _ | rethrow => []

/-- The nodes directly below a node, apart from the bodies of handlers. -/
def parts : Node → List Node
  | block _ body => body
  | branch _ yes no => [yes, no]
  | loop body _ _ => [body]
  | switch _ arms default => arms.map Arm.body ++ default.toList
  | attempt body _ cleanup => body :: cleanup.toList
  | nop | eval _ | assign _ _ | label _ _ | goto _ _ | throw _ | rethrow => []

/-- The variables of a block. -/
def locals : Node → List Symbol
  | block locals _ => locals
  | _ => []

def handlers : Node → List (Handler Node)
  | attempt _ handlers _ => handlers
  | _ => []

/-- `n` stands in the tree of `root`, inside of the nodes `around` and of the bodies of `handlers`,
both from the inside out. -/
inductive Stands (root : Node) : List Node → List (Handler Node) → Node → Prop
  | here : Stands root [] [] root
  | part {around hs n c} (outer : Stands root around hs n) (mem : c ∈ n.parts) :
      Stands root (n :: around) hs c
  | handler {around hs n h} (outer : Stands root around hs n) (mem : h ∈ n.handlers) :
      Stands root (n :: around) (h :: hs) h.body

theorem Stands.trans {root n c : Node} {around around' : List Node}
    {hs hs' : List (Handler Node)} (h : Stands root around hs n) (h' : Stands n around' hs' c) :
    Stands root (around' ++ around) (hs' ++ hs) c := by
  induction h' with
  | here => exact h
  | part _ mem ih => exact ih.part mem
  | handler _ mem ih => exact ih.handler mem

/-! ## Calls of a node -/

open Exec Machine Outcome

/-- The statements of a block that an execution begins with. -/
def opening (body : List Node) : Option Descent → List Node
  | none => body
  | some s => placeOf s.target body

/-- The calls that a node makes, with the exception that is caught if it is one of a handler. -/
inductive Calls :
    Nat → Node → Option Descent → Machine ω → Option (Handler Node × Value) → Call ω → Prop
  | block {fuel locals body d m m₁ c} (ticked : tick m = .ok () m₁)
      (call : SequenceCalls (execWithin fuel) body fuel (opening body d) d (m₁.declare locals) c) :
      Calls (fuel + 1) (block locals body) d m none c
  | sought {fuel test yes no s m m₁} (ticked : tick m = .ok () m₁) :
      Calls (fuel + 1) (branch test yes no) (some s) m none
        ⟨if yes.defines s.target then yes else no, some s, m₁⟩
  | tested {fuel test yes no m m₁ holds m₂} (ticked : tick m = .ok () m₁)
      (value : test.eval m₁ = .ok (.bool holds) m₂) :
      Calls (fuel + 1) (branch test yes no) none m none ⟨if holds then yes else no, none, m₂⟩
  | loop {fuel body leave next d m m₁ c} (ticked : tick m = .ok () m₁)
      (call : RoundsCalls (execWithin fuel) body leave next fuel d m₁ c) :
      Calls (fuel + 1) (loop body leave next) d m none c
  | armSought {fuel value arms default s m m₁ c} (ticked : tick m = .ok () m₁)
      (call : ArmsCalls (execWithin fuel) (arms.map Arm.body ++ default.toList) fuel
        ((arms.map Arm.body ++ default.toList).find? (·.defines s.target)) (some s) m₁ c) :
      Calls (fuel + 1) (switch value arms default) (some s) m none c
  | armSelected {fuel value arms default m m₁ found m₂ c} (ticked : tick m = .ok () m₁)
      (selected : (value.eval >>= fun v => select v arms) m₁ = .ok found m₂)
      (call : ArmsCalls (execWithin fuel) (arms.map Arm.body ++ default.toList) fuel
        (found <|> default) none m₂ c) :
      Calls (fuel + 1) (switch value arms default) none m none c
  | attempt {fuel body handlers cleanup d m m₁ entered c} (ticked : tick m = .ok () m₁)
      (call : RegionCalls (execWithin fuel) body handlers cleanup fuel d m₁ entered c) :
      Calls (fuel + 1) (attempt body handlers cleanup) d m entered c

namespace Calls

variable {fuel : Nat} {n : Node} {d : Option Descent} {m : Machine ω}
  {entered : Option (Handler Node × Value)} {c : Call ω}

/-- A call is of a part of the node, or of one of its handlers. -/
theorem place (h : Calls fuel n d m entered c) :
    (entered = none ∧ c.node ∈ n.parts) ∨
      ∃ h v, entered = some (h, v) ∧ h ∈ n.handlers ∧ c.node = h.body := by
  cases h with
  | @block _ locals body d m m₁ c ticked call =>
    refine .inl ⟨rfl, call.mem ?_⟩
    cases d with
    | none => exact fun _ hn => hn
    | some s => exact placeOf_subset _ _
  | @sought _ test yes no s m m₁ ticked =>
    refine .inl ⟨rfl, ?_⟩
    dsimp only
    split <;> simp [parts]
  | @tested _ test yes no m m₁ holds m₂ ticked value =>
    refine .inl ⟨rfl, ?_⟩
    cases holds <;> simp [parts]
  | loop ticked call => exact .inl ⟨rfl, List.mem_singleton.mpr call.node_eq⟩
  | armSought ticked call =>
    exact .inl ⟨rfl, call.mem fun _ hn => List.mem_of_find?_eq_some hn⟩
  | @armSelected _ value arms default m m₁ found m₂ c ticked selected call =>
    refine .inl ⟨rfl, call.mem fun n hn => ?_⟩
    cases found with
    | none => exact List.mem_append_right _ (by simpa using hn)
    | some body =>
      obtain rfl : body = n := Option.some.inj hn
      obtain ⟨v, m', -, hselect⟩ := andThen_ok.mp selected
      exact List.mem_append_left _ (select_mem hselect)
  | @attempt _ body handlers cleanup d m m₁ entered c ticked call =>
    rcases call.node_eq with ⟨rfl, hn⟩ | ⟨h, v, rfl, hh, hn, -⟩
    · refine .inl ⟨rfl, ?_⟩
      rcases hn with hn | hn
      · exact hn ▸ List.mem_cons_self
      · exact List.mem_cons_of_mem _ (Option.mem_toList.mpr hn)
    · exact .inr ⟨h, v, rfl, hh, hn⟩

/-- A call starts from what its node started from. -/
theorem arrives (h : Calls fuel n d m entered c) : Arrives entered.toList m c.machine := by
  cases h with
  | @block _ locals body d m m₁ c ticked call =>
    have hstart := (tick_keeping.ok ticked).trans (.declare m₁ locals)
    exact .of_stays (hstart.trans (call.stays (execWithin_keeping _)))
  | sought ticked => exact .of_stays (tick_keeping.ok ticked)
  | tested ticked value =>
    exact .of_stays ((tick_keeping.ok ticked).trans ((Expr.eval_keeping _).ok value))
  | loop ticked call =>
    exact .of_stays ((tick_keeping.ok ticked).trans (call.stays (execWithin_keeping _)))
  | armSought ticked call =>
    exact .of_stays ((tick_keeping.ok ticked).trans (call.stays (execWithin_keeping _)))
  | @armSelected _ value arms default m m₁ found m₂ c ticked selected call =>
    have hstart := (tick_keeping.ok ticked).trans ((choice_keeping value arms).ok selected)
    exact .of_stays (hstart.trans (call.stays (execWithin_keeping _)))
  | attempt ticked call =>
    simpa using (Arrives.of_stays (tick_keeping.ok ticked)).trans
      (call.arrives (execWithin_keeping _))

/-- The locals of a block have values in it. -/
theorem declared {locals : List Symbol} {body : List Node}
    (h : Calls fuel (.block locals body) d m entered c) {s : Symbol} (hs : s ∈ locals) :
    c.machine.env.contains s.id = true := by
  cases h with
  | block ticked call =>
    refine (call.stays (execWithin_keeping _)).env _ ?_
    exact Env.contains_foldl_declare.mpr (.inl ⟨s, hs, rfl⟩)

/-- The variable of a handler has a value in it. -/
theorem bound {h : Handler Node} {v : Value} (hc : Calls fuel n d m (some (h, v)) c) {s : Symbol}
    (hs : h.binding = some s) : c.machine.env.contains s.id = true := by
  cases hc with
  | attempt ticked call =>
    rcases call.node_eq with ⟨h, -⟩ | ⟨h', v', h, -, -, hbound⟩
    · cases h
    · cases h
      exact hbound s hs

end Calls

/-! ## What a node ends with by itself -/

/-- The jumps and the causes to stop that do not come from below a node. -/
inductive Ends (n : Node) (m : Machine ω) : Ending → Prop
  | limit : Ends n m (.failed (.stepLimit m.stepLimit))
  | read {m₁ m₂ e cause} (stays : m.Stays m₁) (own : e ∈ n.reads)
      (failed : e.eval m₁ = .error cause m₂) : Ends n m (.failed cause)
  | test (v : Value) : Ends n m (.failed (.typeError (.test v)))
  | intoHandler (l : LabelId) : Ends n m (.failed (.jumpIntoHandler l))
  | noException (rethrow : n = .rethrow) (none : m.handling = []) :
      Ends n m (.failed .noActiveException)
  | jump {l} (goto : n = .goto l none) : Ends n m (.jump l.id none)
  | jumpWith {l e m₁ v m₂} (goto : n = .goto l (some e)) (ticked : tick m = .ok () m₁)
      (value : e.eval m₁ = .ok v m₂) : Ends n m (.jump l.id (some v))

/-- An evaluation that comes first stops for a cause, or what is done with the result has the
ending. -/
theorem evaluating_ending {α : Type} {x : Eval ω α} {next : α → Exec ω Flow} {m : Machine ω}
    {k : Ending} (h : ending? (evaluating x next m) = some k) :
    (∃ cause m₁, x m = .error cause m₁ ∧ k = .failed cause) ∨
      ∃ a m₁, x m = .ok a m₁ ∧ ending? (next a m₁) = some k := by
  unfold evaluating at h
  cases hx : x m with
  | ok a m₁ =>
    rw [hx] at h
    exact .inr ⟨a, m₁, rfl, h⟩
  | error cause m₁ =>
    rw [hx] at h
    cases cause with
    | thrown v => cases h
    | _ => exact .inl ⟨_, m₁, rfl, (Option.some.inj h).symm⟩

theorem selects_error {v : Value} {values : List Expr} {m m' : Machine ω} {cause : EvalError}
    (h : select.selects v values m = .error cause m') :
    ∃ e ∈ values, ∃ m₁ m₂, m.Stays m₁ ∧ e.eval m₁ = .error cause m₂ := by
  induction values generalizing m with
  | nil => cases h
  | cons e values ih =>
    rcases andThen_error.mp h with he | ⟨a, m₁, he, h⟩
    · exact ⟨e, List.mem_cons_self, m, _, .refl m, he⟩
    · split at h
      · cases h
      · obtain ⟨e', he', m₂, m₃, hstays, hfail⟩ := ih h
        exact ⟨e', List.mem_cons_of_mem _ he', m₂, m₃, (e.eval_keeping.ok he).trans hstays, hfail⟩

theorem select_error {v : Value} {arms : List (Arm Node)} {m m' : Machine ω} {cause : EvalError}
    (h : select v arms m = .error cause m') :
    ∃ e ∈ arms.flatMap Arm.values, ∃ m₁ m₂, m.Stays m₁ ∧ e.eval m₁ = .error cause m₂ := by
  induction arms generalizing m with
  | nil => cases h
  | cons a arms ih =>
    rw [List.flatMap_cons]
    rcases andThen_error.mp h with ha | ⟨found, m₁, ha, h⟩
    · obtain ⟨e, he, hfail⟩ := selects_error ha
      exact ⟨e, List.mem_append_left _ he, hfail⟩
    · split at h
      · cases h
      · obtain ⟨e, he, m₂, m₃, hstays, hfail⟩ := ih h
        exact ⟨e, List.mem_append_right _ he, m₂, m₃,
          ((selects_keeping v a.values).ok ha).trans hstays, hfail⟩

/-- The choice of an arm stops for what one of the switch's expressions stops for. -/
theorem choice_error {value : Expr} {arms : List (Arm Node)} {m m' : Machine ω}
    {cause : EvalError} (h : (value.eval >>= fun v => select v arms) m = .error cause m') :
    ∃ e ∈ value :: arms.flatMap Arm.values, ∃ m₁ m₂, m.Stays m₁ ∧ e.eval m₁ = .error cause m₂ := by
  rcases andThen_error.mp h with hv | ⟨v, m₁, hv, h⟩
  · exact ⟨value, List.mem_cons_self, m, m', .refl m, hv⟩
  · obtain ⟨e, he, m₂, m₃, hstays, hfail⟩ := select_error h
    exact ⟨e, List.mem_cons_of_mem _ he, m₂, m₃, (value.eval_keeping.ok hv).trans hstays, hfail⟩

variable {fuel : Nat} {n : Node} {d : Option Descent} {m : Machine ω} {k : Ending}

/-- A node ends with a jump or a cause by itself, or with one that a call has ended with. -/
theorem execWithin_ending (h : ending? (n.execWithin (fuel + 1) d m) = some k) :
    n.Ends m k ∨ ∃ entered c, Calls (fuel + 1) n d m entered c ∧
      ending? (c.result (execWithin fuel)) = some k := by
  rcases ending_andThen h with ⟨cause, m₁, ht, rfl⟩ | ⟨u, m₁, ticked, h⟩
  · obtain rfl := (Halt.failed.inj (tick_error ht))
    exact .inl .limit
  have hstays := tick_keeping.ok ticked
  cases n with
  | nop => cases h
  | eval e =>
    rcases evaluating_ending h with ⟨cause, m₂, he, rfl⟩ | ⟨v, m₂, -, h⟩
    · exact .inl (.read hstays (List.mem_singleton_self _) he)
    · cases h
  | assign target value =>
    rcases evaluating_ending h with ⟨cause, m₂, he, rfl⟩ | ⟨v, m₂, -, h⟩
    · exact .inl (.read hstays (List.mem_singleton_self _) he)
    · cases h
  | block locals body =>
    obtain ⟨c, hc, hk⟩ : ∃ c, SequenceCalls (execWithin fuel) body fuel (opening body d) d
        (m₁.declare locals) c ∧ ending? (c.result (execWithin fuel)) = some k := by
      cases d with
      | none => exact sequence_ending h
      | some s => exact sequence_ending h
    exact .inr ⟨none, c, .block ticked hc, hk⟩
  | branch test yes no =>
    cases d with
    | some s =>
      refine .inr ⟨none, _, .sought ticked, ?_⟩
      dsimp only at h
      rw [Call.result]
      split at h
      next hyes => simpa only [hyes, if_true] using h
      next hno => simpa only [hno, if_false, Bool.false_eq_true] using h
    | none =>
      rcases evaluating_ending h with ⟨cause, m₂, he, rfl⟩ | ⟨v, m₂, he, h⟩
      · exact .inl (.read hstays (List.mem_singleton_self _) he)
      · split at h
        · exact .inr ⟨none, _, .tested ticked he, h⟩
        · exact .inr ⟨none, _, .tested ticked he, h⟩
        · exact .inl (ending_failed h ▸ .test _)
  | loop body leave next =>
    obtain ⟨c, hc, hk⟩ := rounds_ending h
    exact .inr ⟨none, c, .loop ticked hc, hk⟩
  | label target default => cases h
  | goto target value =>
    cases value with
    | none => exact .inl ((Option.some.inj h) ▸ .jump rfl)
    | some e =>
      rcases evaluating_ending h with ⟨cause, m₂, he, rfl⟩ | ⟨v, m₂, he, h⟩
      · exact .inl (.read hstays (by simp [reads]) he)
      · exact .inl ((Option.some.inj h) ▸ .jumpWith rfl ticked he)
  | switch value arms default =>
    cases d with
    | some s =>
      obtain ⟨c, hc, hk⟩ := arms_ending h
      exact .inr ⟨none, c, .armSought ticked hc, hk⟩
    | none =>
      rcases evaluating_ending h with ⟨cause, m₂, he, rfl⟩ | ⟨found, m₂, he, h⟩
      · obtain ⟨e, hmem, m₃, m₄, hlater, hfail⟩ := choice_error he
        exact .inl (.read (hstays.trans hlater) hmem hfail)
      · obtain ⟨c, hc, hk⟩ := arms_ending h
        exact .inr ⟨none, c, .armSelected ticked he hc, hk⟩
  | attempt body handlers cleanup =>
    rcases region_ending h with ⟨l, rfl⟩ | ⟨entered, c, hc, hk⟩
    · exact .inl (.intoHandler l)
    · exact .inr ⟨entered, c, .attempt ticked hc, hk⟩
  | throw e =>
    rcases evaluating_ending h with ⟨cause, m₂, he, rfl⟩ | ⟨v, m₂, -, h⟩
    · exact .inl (.read hstays (List.mem_singleton_self _) he)
    · cases h
  | rethrow =>
    dsimp only at h
    rw [get_andThen] at h
    cases hhandling : m₁.handling with
    | nil =>
      simp only [hhandling, List.head?_nil] at h
      rw [ending_failed h]
      exact .inl (.noException rfl (hstays.handling ▸ hhandling))
    | cons v rest =>
      simp only [hhandling, List.head?_cons] at h
      cases h

/-! ## Jumps that a node does not let out -/

variable {m' : Machine ω} {l : LabelId} {v : Option Value}

theorem block_jump {locals : List Symbol} {body : List Node}
    (h : (block locals body).execWithin fuel d m = .ok (.jump l v) m') :
    ∀ n ∈ body, n.defines l = false := by
  cases fuel with
  | zero => cases h
  | succ fuel =>
    obtain ⟨_, m₁, -, h⟩ := andThen_ok.mp h
    obtain ⟨_, m₂, -, h⟩ := andThen_ok.mp h
    refine placeOf_eq_nil_iff.mp ?_
    cases d with
    | none => exact sequence_jump h
    | some s => exact sequence_jump h

theorem loop_jump {body : Node} {leave next : Label}
    (h : (loop body leave next).execWithin fuel d m = .ok (.jump l v) m') :
    l ≠ leave.id ∧ l ≠ next.id ∧ body.defines l = false := by
  cases fuel with
  | zero => cases h
  | succ fuel =>
    obtain ⟨_, m₁, -, h⟩ := andThen_ok.mp h
    exact rounds_jump h

/-! ## Visits -/

/-- The execution of a call with some fuel has the execution of another call with its fuel inside.
`around` are the nodes that it goes through, and `caught` are the handlers among what it goes
through, with the exceptions that they were entered with; both from the inside out. -/
inductive Visits :
    Nat → Call ω → Nat → List Node → List (Handler Node × Value) → Call ω → Prop
  | here {fuel c} : Visits fuel c fuel [] [] c
  | inside {fuel c entered c₁ fuel' around caught c'}
      (call : Calls (fuel + 1) c.node c.descent c.machine entered c₁)
      (later : Visits fuel c₁ fuel' around caught c') :
      Visits (fuel + 1) c fuel' (around ++ [c.node]) (caught ++ entered.toList) c'

namespace Visits

variable {fuel' : Nat} {c c' : Call ω} {around : List Node} {caught : List (Handler Node × Value)}

theorem arrives (h : Visits fuel c fuel' around caught c') :
    Arrives caught c.machine c'.machine := by
  induction h with
  | here => exact .of_stays (.refl _)
  | inside call _ ih => exact call.arrives.trans ih

/-- What is called at a visit is visited. -/
theorem call (h : Visits fuel c (fuel' + 1) around caught c') {c₁ : Call ω}
    {entered : Option (Handler Node × Value)}
    (hcall : Calls (fuel' + 1) c'.node c'.descent c'.machine entered c₁) :
    Visits fuel c fuel' (c'.node :: around) (entered.toList ++ caught) c₁ := by
  generalize hfuel : fuel' + 1 = size at h
  induction h with
  | here =>
    subst hfuel
    have := Visits.inside hcall .here
    rwa [List.nil_append, List.nil_append, ← List.append_nil entered.toList] at this
  | inside outer _ ih =>
    rw [← List.cons_append, ← List.append_assoc]
    exact .inside outer (ih hcall hfuel)

theorem trans (h : Visits fuel c fuel' around caught c') {fuel'' : Nat} {around' : List Node}
    {caught' : List (Handler Node × Value)} {c'' : Call ω}
    (h' : Visits fuel' c' fuel'' around' caught' c'') :
    Visits fuel c fuel'' (around' ++ around) (caught' ++ caught) c'' := by
  induction h with
  | here => simpa using h'
  | inside outer _ ih => simpa using Visits.inside outer (ih h')

/-- A visit stands in the tree where it has gone to. -/
theorem stands (h : Visits fuel c fuel' around caught c') :
    c.node.Stands around (caught.map Prod.fst) c'.node := by
  induction h with
  | here => exact .here
  | inside call _ ih =>
    rw [List.map_append]
    rcases call.place with ⟨rfl, hmem⟩ | ⟨h, v, rfl, hmem, hnode⟩
    · exact (Stands.here.part hmem).trans ih
    · rw [hnode] at ih
      exact (Stands.here.handler hmem).trans ih

end Visits

/-- An execution that ends with a jump or stops for a cause has a visit that does so by itself. -/
theorem Visits.of_ending {c : Call ω} (h : ending? (c.result (execWithin fuel)) = some k) :
    ∃ fuel' around caught c', Visits fuel c fuel' around caught c' ∧
      ending? (c'.result (execWithin fuel')) = some k ∧ c'.node.Ends c'.machine k := by
  induction fuel generalizing c with
  | zero => cases h
  | succ fuel ih =>
    rcases execWithin_ending h with hend | ⟨entered, c₁, hc, hk⟩
    · exact ⟨_, _, _, c, .here, h, hend⟩
    · obtain ⟨fuel', around, caught, c', hvisit, hend⟩ := ih hk
      exact ⟨fuel', _, _, c', .inside hc hvisit, hend⟩

end Node

end StructuredFlow
