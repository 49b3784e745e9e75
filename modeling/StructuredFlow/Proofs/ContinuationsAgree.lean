import StructuredFlow.Proofs.ContinuationPlaces
import StructuredFlow.Proofs.JumpsConsumed
import StructuredFlow.Proofs.TurnsFollowed

/-
  Execution by turns agrees with the continuations, in a program without guarded regions. A turn
  stands for a point (`Point.ofTurn`): a call from the start for the start of its node, and a jump,
  on its way up or down, for the place where it lands. So the climb and the descent take no steps
  from point to point, and every other turn takes some; what a turn comes to is where its point
  leads (`Turn.Ends.advances`), and a turn whose point leads to an end comes to something
  (`Turn.Sits.ends`).
-/

namespace StructuredFlow

variable {ω : Type}

open Exec Outcome

namespace Machine

variable {m m' : Machine ω} {ls : List Symbol}

/-- All of the symbols have values. -/
def Declared (m : Machine ω) (ls : List Symbol) : Prop :=
  ∀ x ∈ ls, m.env.contains x.id = true

theorem Declared.grows (h : m.Declared ls) (henv : m.env.Grows m'.env) : m'.Declared ls :=
  fun x hx => henv _ (h x hx)

theorem Declared.declare (h : m.Declared ls) (locals : List Symbol) :
    (m.declare locals).Declared (ls ++ locals) := by
  intro x hx
  refine Env.contains_foldl_declare.mpr ?_
  rcases List.mem_append.mp hx with hx | hx
  · exact .inr (h x hx)
  · exact .inl ⟨x, hx, rfl⟩

/-- Symbols that have values are not declared anew. -/
theorem Declared.declare_eq (h : m.Declared ls) : m.declare ls = m := by
  have henv : ls.foldl Env.declare m.env = m.env := by
    induction ls with
    | nil => rfl
    | cons x ls ih =>
      have hx : m.env.declare x = m.env := if_pos (h x List.mem_cons_self)
      rw [List.foldl_cons, hx]
      exact ih fun y hy => h y (List.mem_cons_of_mem _ hy)
  unfold Machine.declare
  rw [henv]

end Machine

/-! ## Points of turns -/

/-- The place that a call seeks is in its node. -/
def Call.Sought (c : Call ω) : Prop :=
  ∀ s, c.descent = some s → c.node.defines s.target = true

/-- What is left to do after a node below, with what is left after the waiting node. -/
def Waiting.extend (k : Continuation) : Waiting → Continuation
  | row _ rest => .statements rest :: k
  | rounds body _ _ => .again body :: k
  | arms _ | guarded _ _ _ | handling _ _ _ | cleaning _ => k

namespace Point

def ofReport (root : Node) (k : Continuation) : Report ω → State ω
  | .ok (.normal v) m => .ok (.finish v k) m
  | .ok (.jump l v) m => land root l v m
  | .ok (.throw v) m => .error (.thrown v) m
  | .error e m => .error e m

def ofCall (root : Node) (k : Continuation) : Call ω → State ω
  | ⟨n, none, m⟩ => .ok (.start n k) m
  | ⟨_, some s, m⟩ => land root s.target s.value m

/-- The point that a turn stands for. -/
def ofTurn (root : Node) (k : Continuation) : Turn ω → State ω
  | .done r => ofReport root k r
  | .tail c => ofCall root k c
  | .call c w => ofCall root (w.extend k) c

end Point

/-- A turn of a program is about nodes that stand where their continuation is what is left to do,
and the locals around have values. -/
inductive Turn.Sits (root : Node) (k : Continuation) (ls : List Symbol) : Turn ω → Prop
  | done {r} (caught : ∀ v m, r ≠ .error (.thrown v) m) : Sits root k ls (.done r)
  | tail {c} (place : root.Continues c.node k ls) (sought : c.Sought)
      (declared : c.machine.Declared ls) : Sits root k ls (.tail c)
  | row {c locals body before rest} (outer : root.Continues (.block locals body) k ls)
      (split : body = before ++ c.node :: rest) (sought : c.Sought)
      (declared : c.machine.Declared (ls ++ locals)) : Sits root k ls (.call c (.row body rest))
  | rounds {d m body leave next} (outer : root.Continues (.loop body leave next) k ls)
      (sought : (⟨body, d, m⟩ : Call ω).Sought) (declared : m.Declared ls) :
      Sits root k ls (.call ⟨body, d, m⟩ (.rounds body leave next))
  | arms {c value arms default} (outer : root.Continues (.switch value arms default) k ls)
      (mem : c.node ∈ arms.map Arm.body ++ default.toList) (sought : c.Sought)
      (declared : c.machine.Declared ls) :
      Sits root k ls (.call c (.arms (arms.map Arm.body ++ default.toList)))

open Point

/-- The nodes that a turn goes on with. -/
def Turn.callees : Turn ω → List Node
  | .done _ => []
  | .tail c | .call c _ => [c.node]

theorem Turn.callees_reading {α : Type} {x : EStateM.Result EvalError (Machine ω) α}
    {next : α → Machine ω → Turn ω} {ns : List Node}
    (h : ∀ a m, x = .ok a m → (next a m).callees ⊆ ns) : (Turn.reading x next).callees ⊆ ns := by
  unfold Turn.reading
  split
  · exact h _ _ rfl
  · exact List.nil_subset _
  · exact List.nil_subset _

theorem Turn.callees_arm (bodies : List Node) (body : Option Node) (d : Option Descent)
    (m : Machine ω) (h : ∀ n ∈ body, n ∈ bodies) : (Turn.arm bodies body d m).callees ⊆ bodies := by
  cases body with
  | none => exact List.nil_subset _
  | some n => exact List.cons_subset.mpr ⟨h n rfl, List.nil_subset _⟩

/-- A call goes on with nodes directly below its own. -/
theorem Call.callees_begin (c : Call ω) : c.begin.callees ⊆ c.node.children := by
  obtain ⟨n, d, m⟩ := c
  cases n with
  | eval e => exact Turn.callees_reading fun _ _ _ => List.nil_subset _
  | assign target value => exact Turn.callees_reading fun _ _ _ => List.nil_subset _
  | throw e => exact Turn.callees_reading fun _ _ _ => List.nil_subset _
  | block locals body =>
    show (Turn.row body (Node.opening body d) d .void _).callees ⊆ body
    have hopening : Node.opening body d ⊆ body := by
      cases d with
      | none => exact List.Subset.refl _
      | some s => exact placeOf_subset _ _
    cases h : Node.opening body d with
    | nil => exact List.nil_subset _
    | cons n rest =>
      exact List.cons_subset.mpr ⟨hopening (h ▸ List.mem_cons_self), List.nil_subset _⟩
  | branch test yes no =>
    have hpart : ∀ b : Bool, [if b then yes else no] ⊆ [yes, no] := by
      intro b
      cases b
      · exact List.subset_cons_self _ _
      · exact List.cons_subset.mpr ⟨List.mem_cons_self, List.nil_subset _⟩
    cases d with
    | some s => exact hpart (yes.defines s.target)
    | none =>
      refine Turn.callees_reading fun v m₁ _ => ?_
      cases v with
      | bool holds => exact hpart holds
      | _ => exact List.nil_subset _
  | loop body leave next => exact List.Subset.refl _
  | goto target value =>
    cases value with
    | none => exact List.nil_subset _
    | some e => exact Turn.callees_reading fun _ _ _ => List.nil_subset _
  | switch value cases default =>
    cases d with
    | some s => exact Turn.callees_arm _ _ _ _ fun _ hn => List.mem_of_find?_eq_some hn
    | none =>
      refine Turn.callees_reading fun found m₁ hfound => Turn.callees_arm _ _ _ _ fun n hn => ?_
      obtain ⟨v, m', -, hselect⟩ := andThen_ok.mp hfound
      cases found with
      | some body =>
        obtain rfl : body = n := Option.some.inj hn
        exact List.mem_append_left _ (Node.select_mem hselect)
      | none => exact List.mem_append_right _ (Option.mem_toList.mpr hn)
  | attempt body handlers cleanup =>
    show (Turn.region body handlers cleanup d m).callees ⊆ _
    unfold Turn.region
    cases hentrance : entrance body cleanup d with
    | body => exact List.cons_subset.mpr ⟨List.mem_cons_self, List.nil_subset _⟩
    | cleanup n =>
      refine List.cons_subset.mpr ⟨List.mem_cons_of_mem _ (List.mem_append_right _ ?_),
        List.nil_subset _⟩
      exact Option.mem_toList.mpr (entrance_cleanup hentrance).1
    | handler l => exact List.nil_subset _
  | rethrow =>
    obtain ⟨env, heap, host, world, handling, disposeLog⟩ := m
    cases handling <;> exact List.nil_subset _
  | _ => exact List.nil_subset _

section Program

variable {root n : Node} {k : Continuation} {ls : List Symbol} {m : Machine ω}

theorem Point.land_eq (hroot : (root.places.map Label.id).Nodup) (h : root.Continues n k ls)
    {l : LabelId} {there : Destination} (hthere : (l, there) ∈ n.destinations k ls)
    (v : Option Value) (m : Machine ω) :
    land root l v m = .ok (.finish (there.landing.value v) there.rest) (m.declare there.locals) := by
  unfold land
  rw [h.destination?_eq hroot hthere]
  rfl

/-- On the way down to the place of a jump it makes no difference whether the locals of a block are
declared already. -/
theorem Point.land_declare (hroot : (root.places.map Label.id).Nodup) (hplain : root.Unguarded)
    {locals : List Symbol} {body : List Node} (h : root.Continues (.block locals body) k ls)
    {l : LabelId} (hl : (Node.block locals body).defines l = true) (hm : m.Declared ls)
    (v : Option Value) : land root l v (m.declare locals) = land root l v m := by
  obtain ⟨there, hthere⟩ := Node.exists_destination (h.unguarded hplain) hl k ls
  obtain ⟨before, c, rest, -, hc⟩ := Node.mem_destinationsRow.mp hthere
  obtain ⟨inner, hlocals⟩ := Node.locals_destinations hc
  have hdeclare : (m.declare locals).declare there.locals = m.declare there.locals := by
    rw [hlocals, Machine.declare_append, (hm.declare locals).declare_eq, Machine.declare_append,
      Machine.declare_append, hm.declare_eq]
  rw [land_eq hroot h hthere, land_eq hroot h hthere, hdeclare]

/-- Statements of a block from some on are a turn at their place. -/
theorem Turn.sits_row {locals : List Symbol} {body before rest : List Node} {d : Option Descent}
    {last : Value} (outer : root.Continues (.block locals body) k ls)
    (split : body = before ++ rest) (hm : m.Declared (ls ++ locals))
    (hd : ∀ s, d = some s → ∀ n ∈ rest.head?, n.defines s.target = true) :
    (Turn.row body rest d last m).Sits root k ls := by
  cases rest with
  | nil => exact .done nofun
  | cons n rest => exact .row outer split (fun s hs => hd s hs n rfl) hm

theorem Point.row_advances (body rest : List Node) (last : Value) (m : Machine ω) :
    Advances root (.ok (.finish last (.statements rest :: k)) m) 1
      (ofTurn root k (.row body rest none last m)) := by
  cases rest <;> exact .step rfl .refl

/-- What is done with an evaluation, as a turn and as a step. -/
theorem Point.reading_advances {α : Type} {p : Point} {x : Eval ω α} {f : α → Eval ω Point}
    {next : α → Machine ω → Turn ω} (hp : p.advance root = x >>= f) (hrunning : p.running = true)
    (hnext : ∀ a m₁, x m = .ok a m₁ →
      (next a m₁).Sits root k ls ∧
        ∃ i, Advances root (f a m₁) i (ofTurn root k (next a m₁))) :
    (Turn.reading (x m) next).Sits root k ls ∧
      ∃ i, Advances root (.ok p m) (i + 1) (ofTurn root k (Turn.reading (x m) next)) := by
  have hbind : p.advance root m = EStateM.bind x f m := congrFun hp m
  unfold EStateM.bind at hbind
  cases hx : x m with
  | ok a m₁ =>
    obtain ⟨hsits, i, hi⟩ := hnext a m₁ hx
    rw [hx] at hbind
    exact ⟨hsits, i, .step hrunning (hbind ▸ hi)⟩
  | error e m₁ =>
    rw [hx] at hbind
    have herror : Advances root (.ok p m) 1 (.error e m₁) := .step hrunning (hbind ▸ .refl)
    cases e with
    | thrown v => exact ⟨.done nofun, 0, herror⟩
    | _ => exact ⟨.done nofun, 0, herror⟩

/-- A call from the start of a node, and its point. -/
theorem Call.start_advances (h : root.Continues n k ls) (hplain : root.Unguarded)
    (hm : m.Declared ls) :
    (⟨n, none, m⟩ : Call ω).begin.Sits root k ls ∧
      ∃ i, Advances root (.ok (.start n k) m) (i + 1)
        (ofTurn root k (⟨n, none, m⟩ : Call ω).begin) := by
  have hgrows : ∀ {e : Expr} {v : Value} {m₁ : Machine ω}, e.eval m = .ok v m₁ → m₁.Declared ls :=
    fun he => hm.grows (Expr.eval_keeping _ |>.ok he).env
  cases n with
  | nop => exact ⟨.done nofun, 0, .step rfl .refl⟩
  | eval e => exact reading_advances rfl rfl fun v m₁ _ => ⟨.done nofun, 0, .refl⟩
  | assign target value => exact reading_advances rfl rfl fun v m₁ _ => ⟨.done nofun, 0, .refl⟩
  | block locals body =>
    refine ⟨Turn.sits_row h (List.nil_append _).symm (hm.declare locals) nofun, 1, ?_⟩
    exact .step rfl (row_advances body body .void (m.declare locals))
  | branch test yes no =>
    refine reading_advances rfl rfl fun v m₁ hv => ?_
    cases v with
    | bool holds =>
      cases holds with
      | true => exact ⟨.tail h.yes nofun (hgrows hv), 0, .refl⟩
      | false => exact ⟨.tail h.no nofun (hgrows hv), 0, .refl⟩
    | _ => exact ⟨.done nofun, 0, .refl⟩
  | loop body leave next => exact ⟨.rounds h nofun hm, 0, .step rfl .refl⟩
  | label target default => exact ⟨.done nofun, 0, .step rfl .refl⟩
  | goto target value =>
    cases value with
    | none => exact ⟨.done nofun, 0, .step rfl .refl⟩
    | some e => exact reading_advances rfl rfl fun v m₁ _ => ⟨.done nofun, 0, .refl⟩
  | switch value cases default =>
    refine reading_advances (x := value.eval >>= fun v => select v cases) rfl rfl
      fun found m₁ hfound => ?_
    have hm₁ : m₁.Declared ls := hm.grows ((choice_keeping value cases).ok hfound).env
    obtain ⟨v, m', -, hselect⟩ := andThen_ok.mp hfound
    cases found with
    | some body =>
      refine ⟨.arms h (List.mem_append_left _ (Node.select_mem hselect)) nofun hm₁, 0, .refl⟩
    | none =>
      cases default with
      | none => exact ⟨.done nofun, 0, .refl⟩
      | some body =>
        refine ⟨.arms h (List.mem_append_right _ (List.mem_singleton_self _)) nofun hm₁, 0, .refl⟩
  | attempt body handlers cleanup => exact absurd (Node.self_mem_subnodes _) (h.unguarded hplain _ _ _)
  | throw e => exact reading_advances rfl rfl fun v m₁ _ => ⟨.done nofun, 0, .refl⟩
  | rethrow =>
    obtain ⟨env, heap, host, world, handling, disposeLog⟩ := m
    cases handling with
    | cons v rest => exact ⟨.done nofun, 0, .step rfl .refl⟩
    | nil => exact ⟨.done nofun, 0, .step rfl .refl⟩

/-- The callee of a turn of the program stands where its continuation is left to do. -/
theorem Turn.Sits.callee {c : Call ω} {w : Waiting} (h : (Turn.call c w).Sits root k ls) :
    ∃ ls', root.Continues c.node (w.extend k) ls' ∧ c.Sought ∧ c.machine.Declared ls' := by
  cases h with
  | row outer split sought declared => exact ⟨_, .row outer split, sought, declared⟩
  | rounds outer sought declared => exact ⟨_, .body outer, sought, declared⟩
  | arms outer mem sought declared => exact ⟨_, .arm outer mem, sought, declared⟩

/-- What a waiting node comes to with a report is where the point of the report leads. Without a
step it does not go on, unless with a jump; and a jump that comes out was the report. -/
structure Turn.Resumes (root : Node) (k : Continuation) (ls : List Symbol) (w : Waiting)
    (r : Report ω) (t : Turn ω) : Prop where
  sits : t.Sits root k ls
  advances : ∃ i, Advances root (ofReport root (w.extend k) r) i (ofTurn root k t) ∧
    (i = 0 → (∀ l v m, r ≠ .ok (.jump l v) m) → ∃ r', t = .done r')
  through : ∀ l v m, t = .done (.ok (.jump l v) m) → r = .ok (.jump l v) m

/-- The node hands the report on. -/
theorem Turn.Resumes.unchanged {w : Waiting} {r : Report ω}
    (hcaught : ∀ v m, r ≠ .error (.thrown v) m)
    (hpoint : ofReport root (w.extend k) r = ofReport root k r) :
    Resumes root k ls w r (.done r) := by
  refine ⟨.done hcaught, ⟨0, hpoint ▸ .refl, fun _ _ => ⟨r, rfl⟩⟩, fun l v m hjump => ?_⟩
  cases hjump
  rfl

/-- The node takes a jump, on the way down to its place. -/
theorem Turn.Resumes.inward {w : Waiting} {l : LabelId} {v : Option Value} {t : Turn ω}
    (hsits : t.Sits root k ls) (hpoint : ofTurn root k t = land root l v m)
    (hcalls : ∀ r, t ≠ .done r) : Resumes root k ls w (.ok (.jump l v) m) t := by
  refine ⟨hsits, ⟨0, ?_, fun _ hne => absurd rfl (hne l v m)⟩, fun _ _ _ h => absurd h (hcalls _)⟩
  rw [hpoint]
  exact .refl

/-- Statements after the one that a block has called. -/
theorem Turn.resumes_row {locals : List Symbol} {body before rest : List Node} {n : Node}
    (outer : root.Continues (.block locals body) k ls) (split : body = before ++ n :: rest)
    {flow : Flow} (hm : m.Declared (ls ++ locals)) :
    Resumes root k ls (.row body rest) (.ok flow m) ((Waiting.row body rest).resume (.ok flow m)) := by
  cases flow with
  | normal v =>
    have hsplit : body = (before ++ [n]) ++ rest := by
      rw [split, List.append_assoc]
      rfl
    refine ⟨Turn.sits_row outer hsplit hm nofun, ⟨1, row_advances body rest v m, nofun⟩, ?_⟩
    intro l u m' hjump
    cases rest <;> cases hjump
  | throw v => exact .unchanged nofun rfl
  | jump l v =>
    dsimp only [Waiting.resume]
    cases hplace : placeOf l body with
    | nil => exact .unchanged nofun rfl
    | cons n place =>
      obtain ⟨⟨before, hsplit⟩, hn⟩ := placeOf_eq_cons hplace
      exact .inward (.row outer hsplit (Node.has_some hn) hm) rfl nofun

/-- An arm of a switch has been executed. -/
theorem Turn.resumes_arms {value : Expr} {arms : List (Arm Node)} {default : Option Node}
    (outer : root.Continues (.switch value arms default) k ls) {flow : Flow} (hm : m.Declared ls) :
    Resumes root k ls (.arms (arms.map Arm.body ++ default.toList)) (.ok flow m)
      ((Waiting.arms (arms.map Arm.body ++ default.toList)).resume (.ok flow m)) := by
  cases flow with
  | normal v => exact .unchanged nofun rfl
  | throw v => exact .unchanged nofun rfl
  | jump l v =>
    dsimp only [Waiting.resume]
    cases hfind : (arms.map Arm.body ++ default.toList).find? (·.defines l) with
    | none => exact .unchanged nofun rfl
    | some n =>
      exact .inward (.arms outer (List.mem_of_find?_eq_some hfind) (Node.has_of_find? hfind) hm) rfl
        nofun

variable (hroot : (root.places.map Label.id).Nodup)
include hroot

/-- A round of a loop has been executed. -/
theorem Turn.resumes_rounds {body : Node} {leave next : Label}
    (outer : root.Continues (.loop body leave next) k ls) {flow : Flow} (hm : m.Declared ls) :
    Resumes root k ls (.rounds body leave next) (.ok flow m)
      ((Waiting.rounds body leave next).resume (.ok flow m)) := by
  cases flow with
  | normal v => exact ⟨.rounds outer nofun hm, ⟨1, .step rfl .refl, nofun⟩, nofun⟩
  | throw v => exact .unchanged nofun rfl
  | jump l v =>
    dsimp only [Waiting.resume]
    by_cases hleave : l = leave.id
    · subst hleave
      rw [if_pos rfl]
      refine ⟨.done nofun, ⟨0, ?_, fun _ _ => ⟨_, rfl⟩⟩, nofun⟩
      dsimp only [ofReport]
      rw [land_eq hroot outer List.mem_cons_self, hm.declare_eq]
      exact .refl
    rw [if_neg hleave]
    by_cases hnext : l = next.id
    · subst hnext
      rw [if_pos rfl]
      refine ⟨.rounds outer nofun hm, ⟨1, ?_, nofun⟩, nofun⟩
      dsimp only [ofReport]
      rw [land_eq hroot outer (List.mem_cons_of_mem _ List.mem_cons_self), hm.declare_eq]
      exact .step rfl .refl
    rw [if_neg hnext]
    by_cases hbody : body.defines l = true
    · rw [if_pos hbody]
      exact .inward (.rounds outer (Node.has_some hbody) hm) rfl nofun
    · rw [if_neg hbody]
      exact .unchanged nofun rfl

/-- What a waiting node comes to is where the point of the report leads. -/
theorem Turn.Sits.resumes {c : Call ω} {w : Waiting} (h : (Turn.call c w).Sits root k ls)
    {r : Report ω} (hgrows : c.machine.env.Grows (final r).env)
    (hcaught : ∀ v m, r ≠ .error (.thrown v) m) : Resumes root k ls w r (w.resume r) := by
  cases r with
  | error e m => cases h <;> exact .unchanged hcaught rfl
  | ok flow m =>
    cases h with
    | row outer split sought declared => exact resumes_row outer split (declared.grows hgrows)
    | rounds outer sought declared => exact resumes_rounds hroot outer (declared.grows hgrows)
    | arms outer mem sought declared => exact resumes_arms outer (declared.grows hgrows)

variable (hplain : root.Unguarded)
include hplain

/-- A call on its way down to the place of a jump stands for the place where the jump lands. -/
theorem Call.descent_begins (h : root.Continues n k ls) (hm : m.Declared ls) {s : Descent}
    (hs : n.defines s.target = true) :
    (⟨n, some s, m⟩ : Call ω).begin.Sits root k ls ∧
      ofTurn root k (⟨n, some s, m⟩ : Call ω).begin = land root s.target s.value m ∧
      ∀ l v m', (⟨n, some s, m⟩ : Call ω).begin ≠ .done (.ok (.jump l v) m') := by
  cases n with
  | label target default =>
    obtain ⟨l, v⟩ := s
    obtain rfl : target.id = l := beq_iff_eq.mp hs
    refine ⟨.done nofun, ?_, nofun⟩
    rw [land_eq hroot h (List.mem_singleton_self _), hm.declare_eq]
    show EStateM.Result.ok _ _ = _
    rw [labelValue_carried]
    rfl
  | block locals body =>
    have hplace : ∃ c rest, placeOf s.target body = c :: rest := by
      cases hplace : placeOf s.target body with
      | nil =>
        rw [Node.defines_eq, Bool.or_eq_true, List.any_eq_true] at hs
        obtain ⟨c, hc, hdef⟩ := hs.resolve_left Bool.false_ne_true
        rw [placeOf_eq_nil_iff.mp hplace c hc] at hdef
        cases hdef
      | cons c rest => exact ⟨c, rest, rfl⟩
    obtain ⟨c, rest, hplace⟩ := hplace
    obtain ⟨⟨before, hsplit⟩, hc⟩ := placeOf_eq_cons hplace
    have hbegin : (⟨.block locals body, some s, m⟩ : Call ω).begin =
        .call ⟨c, some s, m.declare locals⟩ (.row body rest) := by
      show Turn.row body (placeOf s.target body) _ _ _ = _
      rw [hplace]
      rfl
    rw [hbegin]
    refine ⟨.row h hsplit (Node.has_some hc) (hm.declare locals), ?_, nofun⟩
    exact land_declare hroot hplain h hs hm s.value
  | branch test yes no =>
    refine ⟨?_, rfl, nofun⟩
    show Turn.Sits root k ls (.tail ⟨if yes.defines s.target then yes else no, some s, m⟩)
    by_cases hyes : yes.defines s.target = true
    · rw [if_pos hyes]
      exact .tail h.yes (Node.has_some hyes) hm
    · rw [if_neg hyes]
      exact .tail h.no (Node.has_some (((Bool.or_eq_true _ _).mp hs).resolve_left hyes)) hm
  | loop body leave next =>
    exact ⟨.rounds h (Node.has_some (n := body) hs) hm, rfl, nofun⟩
  | switch value arms default =>
    have hbodies : ∃ c ∈ arms.map Arm.body ++ default.toList, c.defines s.target = true := by
      rw [Node.defines_eq, Bool.or_eq_true, List.any_eq_true] at hs
      exact hs.resolve_left Bool.false_ne_true
    obtain ⟨c, hc⟩ := Option.isSome_iff_exists.mp
      (List.find?_isSome (p := fun c => Node.defines s.target c).mpr hbodies)
    have hbegin : (⟨.switch value arms default, some s, m⟩ : Call ω).begin =
        .call ⟨c, some s, m⟩ (.arms (arms.map Arm.body ++ default.toList)) := by
      show Turn.arm _ _ _ _ = _
      rw [hc]
      rfl
    rw [hbegin]
    exact ⟨.arms h (List.mem_of_find?_eq_some hc) (Node.has_of_find? hc) hm, rfl, nofun⟩
  | attempt body handlers cleanup =>
    exact absurd (Node.self_mem_subnodes _) (h.unguarded hplain _ _ _)
  | _ => cases hs

/-- What a call comes to first is where its point leads. -/
theorem Call.begin_advances {c : Call ω} (h : root.Continues c.node k ls) (hs : c.Sought)
    (hm : c.machine.Declared ls) :
    c.begin.Sits root k ls ∧
      ∃ i, Advances root (ofCall root k c) i (ofTurn root k c.begin) ∧
        (i = 0 → ∀ l v m, c.begin ≠ .done (.ok (.jump l v) m)) := by
  obtain ⟨n, d, m⟩ := c
  cases d with
  | none =>
    obtain ⟨hsits, i, hi⟩ := Call.start_advances h hplain hm
    exact ⟨hsits, i + 1, hi, nofun⟩
  | some s =>
    obtain ⟨hsits, hpoint, hjump⟩ := Call.descent_begins hroot hplain h hm (hs s rfl)
    refine ⟨hsits, 0, ?_, fun _ => hjump⟩
    rw [hpoint]
    exact .refl

/-- What a turn comes to is where its point leads; and a jump takes a step before it climbs. -/
theorem Turn.Ends.advances {t : Turn ω} {j : Nat} {r : Report ω} (h : t.Ends j r)
    (hsits : t.Sits root k ls) :
    (∃ i, Advances root (ofTurn root k t) i (ofReport root k r) ∧
      (i = 0 → ∀ l v m, r = .ok (.jump l v) m → t = .done r)) ∧
      ∀ v m, r ≠ .error (.thrown v) m := by
  induction h generalizing k ls with
  | done =>
    cases hsits with
    | done caught => exact ⟨⟨0, .refl, fun _ _ _ _ _ => rfl⟩, caught⟩
  | @tail c j r inner ih =>
    cases hsits with
    | tail place sought declared =>
      obtain ⟨hbegin, i, hi, hstart⟩ := Call.begin_advances hroot hplain place sought declared
      obtain ⟨⟨i', hi', hjump⟩, hcaught⟩ := ih hbegin
      refine ⟨⟨i + i', hi.trans hi', fun hzero l v m hr => ?_⟩, hcaught⟩
      obtain ⟨rfl, rfl⟩ := Nat.add_eq_zero_iff.mp hzero
      exact absurd (hr ▸ hjump rfl l v m hr) (hstart rfl l v m)
  | @call c w j r₁ j' r inner later ihinner ihlater =>
    obtain ⟨ls', place, sought, declared⟩ := hsits.callee
    obtain ⟨hbegin, i, hi, hstart⟩ := Call.begin_advances hroot hplain place sought declared
    obtain ⟨⟨i', hi', hjump⟩, hcaught⟩ := ihinner hbegin
    obtain ⟨hresume, ⟨i₂, hi₂, -⟩, hthrough⟩ := hsits.resumes hroot inner.grows hcaught
    obtain ⟨⟨i₃, hi₃, hjump'⟩, hcaught'⟩ := ihlater hresume
    refine ⟨⟨i + i' + (i₂ + i₃), (hi.trans hi').trans (hi₂.trans hi₃), ?_⟩, hcaught'⟩
    intro hzero l v m hr
    obtain ⟨h₁, h₂⟩ := Nat.add_eq_zero_iff.mp hzero
    obtain ⟨rfl, rfl⟩ := Nat.add_eq_zero_iff.mp h₁
    obtain ⟨rfl, rfl⟩ := Nat.add_eq_zero_iff.mp h₂
    have hr₁ := hthrough l v m (hr ▸ hjump' rfl l v m hr)
    exact absurd (hr₁ ▸ hjump rfl l v m hr₁) (hstart rfl l v m)

section Ends

variable {f : State ω} (hf : (conclusion? f).isSome) {j : Nat}
  (hlater : ∀ j' < j, ∀ (t : Turn ω) k ls, t.Sits root k ls →
    Advances root (ofTurn root k t) j' f → ∃ i r, t.Ends i r)
include hf hlater

/-- A turn that calls a node comes to something if the call does and its point leads to an end, as
long as turns nearer to the end come to something. -/
theorem Turn.Sits.call_ends {c : Call ω} {w : Waiting} (hsits : (Turn.call c w).Sits root k ls)
    {i j' : Nat} {r₁ : Report ω} (hends : c.begin.Ends i r₁) (hle : j' ≤ j)
    (hadvances : Advances root (ofTurn root k (.call c w)) j' f) :
    ∃ i r, (Turn.call c w).Ends i r := by
  obtain ⟨ls', place, sought, declared⟩ := hsits.callee
  have htail : (Turn.tail c).Sits root (w.extend k) ls' := .tail place sought declared
  obtain ⟨⟨i₁, hi₁, hjump⟩, hcaught⟩ := (Turn.Ends.tail hends).advances hroot hplain htail
  obtain ⟨j₁, rfl, hj₁⟩ := hi₁.split hadvances hf
  obtain ⟨hresume, ⟨i₂, hi₂, hprogress⟩, -⟩ := hsits.resumes hroot hends.grows hcaught
  obtain ⟨j₂, rfl, hj₂⟩ := hi₂.split hj₁ hf
  -- Unless the waiting node is done, a step has been taken: by the jump, or by the next turn.
  by_cases hstuck : i₁ = 0 ∧ i₂ = 0
  · obtain ⟨rfl, rfl⟩ := hstuck
    obtain ⟨r', hdone⟩ := hprogress rfl fun l v m hr => nomatch hjump rfl l v m hr
    have hdone' : (w.resume r₁).Ends 0 r' := hdone ▸ .done
    exact ⟨_, r', .call hends hdone'⟩
  · obtain ⟨_, r, hends'⟩ := hlater j₂ (by omega) _ k ls hresume hj₂
    exact ⟨_, r, .call hends hends'⟩

/-- A call whose point leads to an end comes to something, as long as turns nearer to the end do.
The induction is on the node: a callee is a node below. -/
theorem Call.ends_of_advances {c : Call ω} {j' : Nat} (place : root.Continues c.node k ls)
    (sought : c.Sought) (declared : c.machine.Declared ls) (hle : j' ≤ j)
    (hadvances : Advances root (ofCall root k c) j' f) : ∃ i r, c.begin.Ends i r := by
  obtain ⟨n, d, m⟩ := c
  induction n using Node.induct generalizing d m k ls j' with
  | step n ih =>
    obtain ⟨hbegin, i, hi, -⟩ := Call.begin_advances hroot hplain place sought declared
    obtain ⟨j₁, rfl, hj₁⟩ := hi.split hadvances hf
    have hle : j₁ ≤ j := by omega
    have hcallee := Call.callees_begin (⟨n, d, m⟩ : Call ω)
    generalize (⟨n, d, m⟩ : Call ω).begin = t at hbegin hj₁ hcallee
    cases t with
    | done r => exact ⟨0, r, .done⟩
    | tail c =>
      cases hbegin with
      | tail place sought declared =>
        obtain ⟨_, r, hends⟩ := ih c.node (hcallee List.mem_cons_self) hle c.descent c.machine place
          sought declared hj₁
        exact ⟨_, r, .tail hends⟩
    | call c w =>
      obtain ⟨ls', place', sought', declared'⟩ := hbegin.callee
      obtain ⟨_, r, hends⟩ := ih c.node (hcallee List.mem_cons_self) hle c.descent c.machine place'
        sought' declared' hj₁
      exact hbegin.call_ends hroot hplain hf hlater hends hle hj₁

end Ends

/-- A turn whose point leads to an end comes to something. -/
theorem Turn.Sits.ends {f : State ω} (hf : (conclusion? f).isSome) {t : Turn ω} {j : Nat}
    (hsits : t.Sits root k ls) (hadvances : Advances root (ofTurn root k t) j f) :
    ∃ i r, t.Ends i r := by
  induction j using Nat.strong_induction_on generalizing t k ls with
  | _ j ih =>
    have hlater : ∀ j' < j, ∀ (t : Turn ω) k ls, t.Sits root k ls →
        Advances root (ofTurn root k t) j' f → ∃ i r, t.Ends i r :=
      fun j' hj' t k ls hsits hadvances => ih j' hj' hsits hadvances
    cases t with
    | done r => exact ⟨0, r, .done⟩
    | tail c =>
      cases hsits with
      | tail place sought declared =>
        obtain ⟨_, r, hends⟩ := Call.ends_of_advances hroot hplain hf hlater place sought declared
          (Nat.le_refl j) hadvances
        exact ⟨_, r, .tail hends⟩
    | call c w =>
      obtain ⟨ls', place, sought, declared⟩ := hsits.callee
      obtain ⟨_, r, hends⟩ := Call.ends_of_advances hroot hplain hf hlater place sought declared
        (Nat.le_refl j) hadvances
      exact hsits.call_ends hroot hplain hf hlater hends (Nat.le_refl j) hadvances

end Program

end StructuredFlow
