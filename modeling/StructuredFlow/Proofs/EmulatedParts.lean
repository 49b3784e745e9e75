import Mathlib.Data.List.Forall2
import StructuredFlow.Proofs.Emulation
import StructuredFlow.Proofs.NodeTree

/-
  A node whose parts are emulated is emulated. For each kind of node there are the turns that it
  goes through, and these match the turns of the other node. The parts of a row, a loop and a
  switch are entered again on the jumps into them, as long as no label leads into two parts.
-/

namespace StructuredFlow

variable {ω : Type}

/-! ## Lists of related elements -/

section Lists

variable {α β : Type} {R : α → β → Prop} {p : α → Bool} {q : β → Bool} {xs : List α} {ys : List β}

theorem forall₂_dropWhile (hpq : ∀ a b, R a b → q b = p a) (h : List.Forall₂ R xs ys) :
    List.Forall₂ R (xs.dropWhile p) (ys.dropWhile q) := by
  induction h with
  | nil => exact .nil
  | @cons a b xs ys hab hall ih =>
    rw [List.dropWhile_cons, List.dropWhile_cons, hpq a b hab]
    split
    · exact ih
    · exact .cons hab hall

theorem rel_find? (hpq : ∀ a b, R a b → q b = p a) (h : List.Forall₂ R xs ys) :
    Option.Rel R (xs.find? p) (ys.find? q) := by
  induction h with
  | nil => exact .none
  | @cons a b xs ys hab _ ih =>
    rw [List.find?_cons, List.find?_cons, hpq a b hab]
    cases p a with
    | true => exact .some hab
    | false => exact ih

theorem any_eq_of_forall₂ (hpq : ∀ a b, R a b → q b = p a) (h : List.Forall₂ R xs ys) :
    ys.any q = xs.any p := by
  induction h with
  | nil => rfl
  | @cons a b xs ys hab _ ih => rw [List.any_cons, List.any_cons, hpq a b hab, ih]

theorem forall₂_with_mem (h : List.Forall₂ R xs ys) :
    List.Forall₂ (fun x y => x ∈ xs ∧ y ∈ ys ∧ R x y) xs ys := by
  obtain ⟨hlen, hzip⟩ := List.forall₂_iff_zip.mp h
  refine List.forall₂_iff_zip.mpr ⟨hlen, fun hmem => ?_⟩
  exact ⟨(List.of_mem_zip hmem).1, (List.of_mem_zip hmem).2, hzip hmem⟩

end Lists

open Exec

namespace Node

/-- The nodes are emulated one by one. -/
abbrev Emulated (ω : Type) : List Node → List Node → Prop :=
  List.Forall₂ fun n n' => n'.Emulates ω n

theorem emulated_any {ns ns' : List Node} (hall : Emulated ω ns ns') (l : LabelId) :
    ns'.any (·.defines l) = ns.any (·.defines l) :=
  any_eq_of_forall₂ (fun _ _ hc => hc.defines l) hall

/-- No label leads into two of the nodes. -/
def Apart (ns : List Node) : Prop :=
  ns.Pairwise fun c c' => ∀ l, c.defines l = true → c'.defines l = false

namespace Apart

variable {ns ns' before rest : List Node} {n c : Node} {l : LabelId}

theorem emulated (h : Apart ns) (hall : Emulated ω ns ns') : Apart ns' := by
  induction hall with
  | nil => exact .nil
  | @cons n n' ns ns' hn hall ih =>
    obtain ⟨hhead, htail⟩ := List.pairwise_cons.mp h
    refine List.pairwise_cons.mpr ⟨fun c' hc' l hl => ?_, ih htail⟩
    obtain ⟨c, hc, hcc'⟩ := exists_left_of_forall₂ hall hc'
    rw [hcc'.defines]
    exact hhead c hc l ((hn.defines l).symm.trans hl)

theorem placeOf_eq (h : Apart (before ++ n :: rest)) (hn : n.defines l = true) :
    placeOf l (before ++ n :: rest) = n :: rest := by
  obtain ⟨-, -, hbefore⟩ := List.pairwise_append.mp h
  have hnot : ∀ c ∈ before, (!c.defines l) = true := by
    intro c hc
    cases hl : c.defines l with
    | false => rfl
    | true =>
      rw [hbefore c hc n List.mem_cons_self l hl] at hn
      cases hn
  rw [placeOf, List.dropWhile_append_of_pos hnot, List.dropWhile_cons, hn]
  rfl

theorem find?_eq (h : Apart ns) (hc : c ∈ ns) (hl : c.defines l = true) :
    ns.find? (·.defines l) = some c := by
  induction ns with
  | nil => cases hc
  | cons n ns ih =>
    obtain ⟨hhead, htail⟩ := List.pairwise_cons.mp h
    rcases List.mem_cons.mp hc with rfl | hc
    · rw [List.find?_cons, hl]
    · have hn : n.defines l = false := by
        cases hn : n.defines l with
        | false => rfl
        | true =>
          rw [hhead c hc l hn] at hl
          cases hl
      rw [List.find?_cons, hn]
      exact ih htail hc

end Apart

end Node

open Node

/-! ## Statements in a row -/

section Row

variable {locals : List Symbol} {body body' : List Node}

theorem Waiting.resume_row_jump {l : LabelId} {v : Option Value} {m : Machine ω} {n : Node}
    {rest place : List Node} (h : placeOf l body = n :: place) :
    (Waiting.row body rest).resume (.ok (.jump l v) m) =
      .call ⟨n, some ⟨l, v⟩, m⟩ (.row body place) := by
  dsimp only [Waiting.resume]
  rw [h]
  rfl

theorem Waiting.row_keeps {before rest : List Node} {n : Node} (hapart : Apart body)
    (split : body = before ++ n :: rest) : (Waiting.row body rest).Keeps ω n := by
  intro d m l v m' _ _ hl
  subst split
  exact resume_row_jump (hapart.placeOf_eq hl)

theorem emulated_placeOf (hall : Emulated ω body body') (l : LabelId) :
    Emulated ω (placeOf l body) (placeOf l body') :=
  forall₂_dropWhile (fun _ _ hc => congrArg Bool.not (hc.defines l)) hall

/-- Turns of two rows, at the same place in both. -/
inductive RowAlike (body body' : List Node) : Turn ω → Turn ω → Prop
  | done (r) : RowAlike body body' (.done r) (.done r)
  | row {before before' rest rest' d last m} (split : body = before ++ rest)
      (split' : body' = before' ++ rest') (emulated : Emulated ω rest rest')
      (has : ∀ n ∈ rest.head?, n.Has d) :
      RowAlike body body' (.row body rest d last m) (.row body' rest' d last m)

theorem RowAlike.matches (hall : Emulated ω body body') (hapart : Apart body) {t t' : Turn ω}
    (h : RowAlike body body' t t') : Turn.Matches (RowAlike body body') t t' := by
  cases h with
  | done r => exact .done r
  | @row before before' _ _ d last m split split' emulated has =>
    cases emulated with
    | nil => exact .done _
    | @cons n n' rest rest' hn hrest =>
      refine .call hn (has n rfl) (Waiting.row_keeps hapart split)
        (Waiting.row_keeps (hapart.emulated hall) split') fun r => ?_
      cases r with
      | error e m => exact .done _
      | ok flow m =>
        cases flow with
        | normal v =>
          have hsplit : body = (before ++ [n]) ++ rest := by
            rw [split, List.append_assoc]
            rfl
          have hsplit' : body' = (before' ++ [n']) ++ rest' := by
            rw [split', List.append_assoc]
            rfl
          exact .row hsplit hsplit' hrest fun n _ => n.has_none
        | throw v => exact .done _
        | jump l v =>
          have hplaces := emulated_placeOf hall l
          dsimp only [Waiting.resume]
          generalize hplace : placeOf l body = place at hplaces ⊢
          generalize hplace' : placeOf l body' = place' at hplaces ⊢
          cases hplaces with
          | nil => exact .done _
          | @cons c c' place place' hc hplaces =>
            obtain ⟨⟨left, hsplit⟩, hdef⟩ := placeOf_eq_cons hplace
            obtain ⟨⟨left', hsplit'⟩, -⟩ := placeOf_eq_cons hplace'
            refine .row hsplit hsplit' (.cons hc hplaces) fun n hn => ?_
            cases hn
            exact has_some hdef

theorem defines_block (locals : List Symbol) (body : List Node) (l : LabelId) :
    (Node.block locals body).defines l = body.any (·.defines l) :=
  Node.definesAny_eq_any l body

theorem Node.Emulates.block (locals : List Symbol) (hall : Emulated ω body body')
    (hapart : Apart body) : (Node.block locals body').Emulates ω (.block locals body) := by
  refine .of_begin (fun l => ?_) fun d m r hd hr => ?_
  · rw [defines_block, defines_block]
    exact emulated_any hall l
  · refine Turn.Matches.comes (fun _ _ => RowAlike.matches hall hapart) ?_ hr
    cases d with
    | none =>
      exact .row (List.nil_append _).symm (List.nil_append _).symm hall fun n _ => n.has_none
    | some s =>
      refine .row (List.takeWhile_append_dropWhile).symm (List.takeWhile_append_dropWhile).symm
        (emulated_placeOf hall s.target) fun n hn => ?_
      obtain ⟨rest, hplace⟩ := List.head?_eq_some_iff.mp hn
      exact has_some (placeOf_eq_cons hplace).2

end Row

/-! ## Loops -/

section Rounds

variable {body body' : Node} {leave next : Label}

theorem Waiting.rounds_keeps
    (hapart : ∀ l, body.defines l = true → l ≠ leave.id ∧ l ≠ next.id) :
    (Waiting.rounds body leave next).Keeps ω body := by
  intro d m l v m' _ _ hl
  dsimp only [resume]
  rw [if_neg (hapart l hl).1, if_neg (hapart l hl).2, if_pos hl]

/-- Turns of two loops. -/
inductive RoundsAlike (body body' : Node) (leave next : Label) : Turn ω → Turn ω → Prop
  | done (r) : RoundsAlike body body' leave next (.done r) (.done r)
  | round {d m} (has : body.Has d) :
      RoundsAlike body body' leave next (.call ⟨body, d, m⟩ (.rounds body leave next))
        (.call ⟨body', d, m⟩ (.rounds body' leave next))

theorem RoundsAlike.matches (hbody : body'.Emulates ω body)
    (hapart : ∀ l, body.defines l = true → l ≠ leave.id ∧ l ≠ next.id) {t t' : Turn ω}
    (h : RoundsAlike body body' leave next t t') :
    Turn.Matches (RoundsAlike body body' leave next) t t' := by
  cases h with
  | done r => exact .done r
  | round has =>
    have hapart' : ∀ l, body'.defines l = true → l ≠ leave.id ∧ l ≠ next.id :=
      fun l hl => hapart l ((hbody.defines l).symm.trans hl)
    refine .call hbody has (Waiting.rounds_keeps hapart) (Waiting.rounds_keeps hapart') fun r => ?_
    cases r with
    | error e m => exact .done _
    | ok flow m =>
      cases flow with
      | normal v => exact .round body.has_none
      | throw v => exact .done _
      | jump l v =>
        dsimp only [Waiting.resume]
        rw [hbody.defines]
        split
        · exact .done _
        · split
          · exact .round body.has_none
          · split
            next hl => exact .round (has_some hl)
            next => exact .done _

theorem Node.Emulates.loop (hbody : body'.Emulates ω body)
    (hapart : ∀ l, body.defines l = true → l ≠ leave.id ∧ l ≠ next.id) :
    (Node.loop body' leave next).Emulates ω (.loop body leave next) := by
  refine .of_begin hbody.defines fun d m r hd hr => ?_
  exact Turn.Matches.comes (fun _ _ => RoundsAlike.matches hbody hapart) (.round hd) hr

end Rounds

/-! ## Arms -/

section Arms

variable {bodies bodies' : List Node}

/-- The same arm of two switches, or none of both. -/
abbrev SameArm (ω : Type) (bodies bodies' : List Node) : Option Node → Option Node → Prop :=
  Option.Rel fun c c' => c ∈ bodies ∧ c' ∈ bodies' ∧ c'.Emulates ω c

theorem SameArm.find? (hall : Emulated ω bodies bodies') (l : LabelId) :
    SameArm ω bodies bodies' (bodies.find? (·.defines l)) (bodies'.find? (·.defines l)) :=
  rel_find? (fun _ _ hc => hc.2.2.defines l) (forall₂_with_mem hall)

theorem Waiting.arms_keeps {c : Node} (hapart : Apart bodies) (hc : c ∈ bodies) :
    (Waiting.arms bodies).Keeps ω c := by
  intro d m l v m' _ _ hl
  dsimp only [resume]
  rw [hapart.find?_eq hc hl]
  rfl

/-- Turns of two switches, in the same arm of both. -/
inductive ArmsAlike (bodies bodies' : List Node) : Turn ω → Turn ω → Prop
  | done (r) : ArmsAlike bodies bodies' (.done r) (.done r)
  | arm {o o' d m} (same : SameArm ω bodies bodies' o o') (has : ∀ n ∈ o, n.Has d) :
      ArmsAlike bodies bodies' (.arm bodies o d m) (.arm bodies' o' d m)

theorem ArmsAlike.matches (hall : Emulated ω bodies bodies') (hapart : Apart bodies) {t t' : Turn ω}
    (h : ArmsAlike bodies bodies' t t') : Turn.Matches (ArmsAlike bodies bodies') t t' := by
  cases h with
  | done r => exact .done r
  | arm same has =>
    cases same with
    | none => exact .done _
    | some hc =>
      obtain ⟨hmem, hmem', hc⟩ := hc
      refine .call hc (has _ rfl) (Waiting.arms_keeps hapart hmem)
        (Waiting.arms_keeps (hapart.emulated hall) hmem') fun r => ?_
      cases r with
      | error e m => exact .done _
      | ok flow m =>
        cases flow with
        | normal v => exact .done _
        | throw v => exact .done _
        | jump l v =>
          have hfind := SameArm.find? hall l
          dsimp only [Waiting.resume]
          generalize hn : bodies.find? (·.defines l) = o at hfind ⊢
          generalize bodies'.find? (·.defines l) = o' at hfind ⊢
          cases hfind with
          | none => exact .done _
          | @some c c' hc =>
            refine .arm (.some hc) fun n hmem => ?_
            cases hmem
            exact has_of_find? hn

/-- An arm comes to what the same arm of the other switch comes to. -/
theorem SameArm.comes (hall : Emulated ω bodies bodies') (hapart : Apart bodies)
    {o o' : Option Node} (same : SameArm ω bodies bodies' o o') {d : Option Descent}
    (has : ∀ n ∈ o, n.Has d) {m : Machine ω} {r : Report ω} (hr : (Turn.arm bodies o d m).Comes r) :
    (Turn.arm bodies' o' d m).Comes r :=
  Turn.Matches.comes (fun _ _ => ArmsAlike.matches hall hapart) (.arm same has) hr

end Arms

/-! ## Switches and conditionals -/

namespace Outcome

/-- Outcomes that are the same but for the values, which are related. -/
inductive Alike {ε σ α : Type} (Q : α → α → Prop) :
    EStateM.Result ε σ α → EStateM.Result ε σ α → Prop
  | ok {a b s} (h : Q a b) : Alike Q (.ok a s) (.ok b s)
  | error {e s} : Alike Q (.error e s) (.error e s)

end Outcome

/-- Turns that go on alike with the results of an evaluation come to the same. -/
theorem Turn.reading_comes {α : Type} {Q : α → α → Prop}
    {x x' : EStateM.Result EvalError (Machine ω) α} (h : Outcome.Alike Q x x')
    {next next' : α → Machine ω → Turn ω} {r : Report ω}
    (hnext : ∀ a b m, Q a b → (next a m).Comes r → (next' b m).Comes r)
    (hr : (Turn.reading x next).Comes r) : (Turn.reading x' next').Comes r := by
  cases h with
  | ok hab => exact hnext _ _ _ hab hr
  | @error e m => cases e <;> exact hr

/-- With the same values, corresponding arms are selected. -/
theorem Exec.select_alike {Q : Node → Node → Prop} {arms arms' : List (Arm Node)}
    (h : List.Forall₂ (fun a a' => a'.values = a.values ∧ Q a.body a'.body) arms arms') (v : Value)
    (m : Machine ω) : Outcome.Alike (Option.Rel Q) (select v arms m) (select v arms' m) := by
  induction h generalizing m with
  | nil => exact .ok .none
  | @cons a a' arms arms' ha _ ih =>
    show Outcome.Alike _ (EStateM.bind _ _ _) (EStateM.bind _ _ _)
    unfold EStateM.bind
    rw [ha.1]
    cases select.selects v a.values m with
    | error e m₁ => exact .error
    | ok found m₁ =>
      cases found with
      | true => exact .ok (.some ha.2)
      | false => exact ih m₁

theorem Exec.choice_alike {Q : Node → Node → Prop} {arms arms' : List (Arm Node)}
    (h : List.Forall₂ (fun a a' => a'.values = a.values ∧ Q a.body a'.body) arms arms')
    (value : Expr) (m : Machine ω) :
    Outcome.Alike (Option.Rel Q) ((value.eval >>= fun v => select v arms) m)
      ((value.eval >>= fun v => select v arms') m) := by
  show Outcome.Alike _ (EStateM.bind _ _ _) (EStateM.bind _ _ _)
  unfold EStateM.bind
  cases value.eval m with
  | error e m₁ => exact .error
  | ok v m₁ => exact select_alike h v m₁

theorem Node.emulated_bodies {arms arms' : List (Arm Node)} {default default' : Option Node}
    (harms : List.Forall₂ (fun a a' => a'.values = a.values ∧ a'.body.Emulates ω a.body) arms arms')
    (hdefault : Option.Rel (fun c c' => c'.Emulates ω c) default default') :
    Emulated ω (arms.map Arm.body ++ default.toList) (arms'.map Arm.body ++ default'.toList) := by
  refine List.rel_append ?_ ?_
  · rw [List.forall₂_map_left_iff, List.forall₂_map_right_iff]
    exact harms.imp fun _ _ ha => ha.2
  · cases hdefault with
    | none => exact .nil
    | some hc => exact .cons hc .nil

theorem Node.Emulates.switch (value : Expr) {arms arms' : List (Arm Node)}
    {default default' : Option Node}
    (harms : List.Forall₂ (fun a a' => a'.values = a.values ∧ a'.body.Emulates ω a.body) arms arms')
    (hdefault : Option.Rel (fun c c' => c'.Emulates ω c) default default')
    (hapart : Apart (arms.map Arm.body ++ default.toList)) :
    (Node.switch value arms' default').Emulates ω (.switch value arms default) := by
  have hbodies := emulated_bodies harms hdefault
  refine .of_begin (fun l => ?_) fun d m r hd hr => ?_
  · rw [Node.defines_eq, Node.defines_eq]
    exact congrArg _ (emulated_any hbodies l)
  cases d with
  | some s =>
    exact SameArm.comes hbodies hapart (SameArm.find? hbodies s.target)
      (fun _ hn => has_of_find? hn) hr
  | none =>
    let Q (c c' : Node) : Prop := c ∈ arms.map Arm.body ++ default.toList ∧
      c' ∈ arms'.map Arm.body ++ default'.toList ∧ c'.Emulates ω c
    have hselected : List.Forall₂ (fun a a' => a'.values = a.values ∧ Q a.body a'.body)
        arms arms' := by
      refine (forall₂_with_mem harms).imp fun a a' ha => ⟨ha.2.2.1, ?_, ?_, ha.2.2.2⟩
      · exact List.mem_append_left _ (List.mem_map_of_mem ha.1)
      · exact List.mem_append_left _ (List.mem_map_of_mem ha.2.1)
    refine Turn.reading_comes (choice_alike (Q := Q) hselected value m) (fun o o' m₁ hsame hr => ?_) hr
    have hsame' : SameArm ω (arms.map Arm.body ++ default.toList)
        (arms'.map Arm.body ++ default'.toList) (o <|> default) (o' <|> default') := by
      cases hsame with
      | some hc => exact .some hc
      | none =>
        cases hdefault with
        | none => exact .none
        | some hc =>
          refine .some ⟨?_, ?_, hc⟩
          · exact List.mem_append_right _ (List.mem_singleton_self _)
          · exact List.mem_append_right _ (List.mem_singleton_self _)
    exact hsame'.comes hbodies hapart (fun n _ => n.has_none) hr

section Branch

variable {test : Expr} {yes no : Node}

/-- The part of a conditional that a label leads into, as an arm of two. -/
theorem find?_pair {l : LabelId} (h : (Node.branch test yes no).defines l = true) :
    [yes, no].find? (·.defines l) = some (if yes.defines l then yes else no) := by
  rw [List.find?_cons]
  cases hyes : yes.defines l with
  | true => rfl
  | false =>
    have hno : no.defines l = true := by
      rw [Node.defines_eq, Bool.or_eq_true, List.any_eq_true] at h
      obtain ⟨c, hc, hl⟩ := h.resolve_left Bool.false_ne_true
      rcases List.mem_cons.mp hc with rfl | hc
      · rw [hyes] at hl
        cases hl
      · obtain rfl := List.mem_singleton.mp hc
        exact hl
    rw [List.find?_cons, hno]
    rfl

theorem Waiting.resume_pair_of_reenters {l : LabelId} {v : Option Value} {m : Machine ω}
    (h : (Node.branch test yes no).defines l = true) :
    (Waiting.arms [yes, no]).resume (.ok (.jump l v) m) =
      .call ⟨if yes.defines l then yes else no, some ⟨l, v⟩, m⟩ (.arms [yes, no]) := by
  dsimp only [resume]
  rw [find?_pair h]
  rfl

theorem Waiting.resume_pair_of_not_reenters {r : Report ω}
    (h : ¬ (Node.branch test yes no).Reenters r) :
    (Waiting.arms [yes, no]).resume r = .done r := by
  cases r with
  | error e m => rfl
  | ok flow m =>
    cases flow with
    | normal v => rfl
    | throw v => rfl
    | jump l v =>
      have hnone : [yes, no].find? (·.defines l) = none := by
        refine List.find?_eq_none.mpr fun c hc hl => h ⟨l, v, m, rfl, ?_⟩
        rw [Node.defines_eq, Bool.or_eq_true]
        exact .inr (List.any_eq_true.mpr ⟨c, hc, hl⟩)
      dsimp only [resume]
      rw [hnone]

/-- A conditional that takes the jumps into it does with its parts what a switch does with two
arms. -/
theorem branch_as_arms (test : Expr) {c : Call ω} {r : Report ω} :
    (∃ r₁, c.begin.Comes r₁ ∧ ((Waiting.row [.branch test yes no] []).resume r₁).Comes r) ↔
      (Turn.call c (.arms [yes, no])).Comes r := by
  constructor
  · rintro ⟨r₁, hr₁, k, hk⟩
    induction k using Nat.strong_induction_on generalizing c r₁ with
    | _ k ih =>
      refine .call hr₁ ?_
      by_cases hre : (Node.branch test yes no).Reenters r₁
      · obtain ⟨l, v, m, rfl, hl⟩ := hre
        rw [resume_of_reenters hl] at hk
        rw [Waiting.resume_pair_of_reenters hl]
        cases hk with
        | call inner later =>
          cases inner with
          | @tail _ k₁ _ inner => exact ih _ (by omega) _ ⟨k₁, inner⟩ later
      · rw [resume_of_not_reenters hre] at hk
        rw [Waiting.resume_pair_of_not_reenters hre]
        exact ⟨k, hk⟩
  · rintro ⟨k, hk⟩
    induction k using Nat.strong_induction_on generalizing c with
    | _ k ih =>
      cases hk with
      | @call _ _ k₁ r₁ k₂ _ inner later =>
        refine ⟨r₁, ⟨k₁, inner⟩, ?_⟩
        by_cases hre : (Node.branch test yes no).Reenters r₁
        · obtain ⟨l, v, m, rfl, hl⟩ := hre
          rw [Waiting.resume_pair_of_reenters hl] at later
          rw [resume_of_reenters hl]
          obtain ⟨r₂, ⟨k₃, hk₃⟩, hr⟩ := ih k₂ (by omega) later
          exact .call ⟨_, .tail hk₃⟩ hr
        · rw [Waiting.resume_pair_of_not_reenters hre] at later
          rw [resume_of_not_reenters hre]
          exact ⟨k₂, later⟩

theorem settling_of_tail {d : Option Descent} {m : Machine ω} {c : Call ω} {r : Report ω}
    (h : (⟨.branch test yes no, d, m⟩ : Call ω).begin = .tail c) :
    ((Node.branch test yes no).settling d m).Comes r ↔ (Turn.call c (.arms [yes, no])).Comes r := by
  rw [← branch_as_arms test]
  constructor
  · rintro ⟨_, hk⟩
    cases hk with
    | @call _ _ _ r₁ _ _ inner later =>
      rw [h] at inner
      cases inner with
      | tail inner => exact ⟨r₁, ⟨_, inner⟩, ⟨_, later⟩⟩
  · rintro ⟨r₁, ⟨_, hk⟩, hr⟩
    refine .call ?_ hr
    rw [h]
    exact ⟨_, .tail hk⟩

/-- Nodes that are done at once, and not with a jump, settle there. -/
theorem settling_of_done {n n' : Node} {d : Option Descent} {m : Machine ω} {r₀ r : Report ω}
    (h : (⟨n, d, m⟩ : Call ω).begin = .done r₀) (h' : (⟨n', d, m⟩ : Call ω).begin = .done r₀)
    (hjump : ∀ l v m, r₀ ≠ .ok (.jump l v) m) (hr : (n.settling d m).Comes r) :
    (n'.settling d m).Comes r := by
  obtain ⟨_, hk⟩ := hr
  cases hk with
  | call inner later =>
    rw [h] at inner
    cases inner
    rw [resume_of_not_reenters fun ⟨l, v, m₁, hr₀, _⟩ => hjump l v m₁ hr₀] at later
    have hdone : (⟨n', d, m⟩ : Call ω).begin.Comes r₀ := ⟨0, by rw [h']; exact .done⟩
    refine .call hdone ?_
    rw [resume_of_not_reenters fun ⟨l, v, m₁, hr₀, _⟩ => hjump l v m₁ hr₀]
    exact ⟨_, later⟩

/-- A conditional goes on with one of its parts, and which one depends on the test alone; or it is
done at once. -/
theorem begin_branch (test : Expr) (m : Machine ω) :
    (∃ (holds : Bool) (m₁ : Machine ω), ∀ yes no, (⟨.branch test yes no, none, m⟩ : Call ω).begin =
      .tail ⟨if holds then yes else no, none, m₁⟩) ∨
    ∃ r, (∀ yes no, (⟨.branch test yes no, none, m⟩ : Call ω).begin = .done r) ∧
      ∀ l v m, r ≠ .ok (.jump l v) m := by
  have hbegin : ∀ yes no, (⟨.branch test yes no, none, m⟩ : Call ω).begin = _ :=
    fun yes no => by rw [Call.begin]
  cases htest : test.eval m with
  | error e m₁ =>
    simp only [htest] at hbegin
    cases e with
    | thrown v => exact .inr ⟨_, hbegin, nofun⟩
    | _ => exact .inr ⟨_, hbegin, nofun⟩
  | ok v m₁ =>
    simp only [htest] at hbegin
    cases v with
    | bool holds => exact .inl ⟨holds, m₁, hbegin⟩
    | _ => exact .inr ⟨_, hbegin, nofun⟩

theorem SameArm.pair {yes' no' : Node} (hyes : yes'.Emulates ω yes) (hno : no'.Emulates ω no)
    (holds : Bool) : SameArm ω [yes, no] [yes', no'] (some (if holds then yes else no))
      (some (if holds then yes' else no')) := by
  cases holds with
  | true => exact .some ⟨List.mem_cons_self, List.mem_cons_self, hyes⟩
  | false =>
    refine .some ⟨?_, ?_, hno⟩
    · exact List.mem_cons_of_mem _ (List.mem_singleton_self _)
    · exact List.mem_cons_of_mem _ (List.mem_singleton_self _)

theorem Node.Emulates.branch (test : Expr) {yes' no' : Node} (hyes : yes'.Emulates ω yes)
    (hno : no'.Emulates ω no) (hapart : Apart [yes, no]) :
    (Node.branch test yes' no').Emulates ω (.branch test yes no) := by
  have hparts : Emulated ω [yes, no] [yes', no'] := .cons hyes (.cons hno .nil)
  have hdefines : ∀ l, (Node.branch test yes' no').defines l =
      (Node.branch test yes no).defines l := by
    intro l
    rw [Node.defines_eq, Node.defines_eq]
    exact congrArg _ (emulated_any hparts l)
  -- Jumps between the parts come out of a conditional, so it is compared where it settles: there it
  -- does what a switch of two arms does.
  refine ⟨hdefines, fun d m r hd hr => ?_⟩
  cases d with
  | some s =>
    have hfind := find?_pair (hd s rfl)
    rw [settling_of_tail rfl] at hr ⊢
    rw [hyes.defines]
    exact (SameArm.pair hyes hno _).comes hparts hapart
      (fun _ hn => has_of_find? (hfind.trans hn)) hr
  | none =>
    rcases begin_branch test m with ⟨holds, m₁, hbegin⟩ | ⟨r₀, hbegin, hjump⟩
    · rw [settling_of_tail (hbegin _ _)] at hr ⊢
      exact (SameArm.pair hyes hno holds).comes hparts hapart (fun n _ => n.has_none) hr
    · exact settling_of_done (hbegin _ _) (hbegin _ _) hjump hr

end Branch

end StructuredFlow
