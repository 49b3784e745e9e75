import StructuredFlow.Host.Standard
import StructuredFlow.Proofs.KindredNodes
import StructuredFlow.Proofs.MappedTurns
import StructuredFlow.Proofs.ReplacedStatements

/-
  A switch that only has a default becomes the default alone, and its discriminant is left out of
  the program. With the switch in place of the default a program gives the same as long as the
  discriminant has a value each time and leaves the machine as it is
  (`Builder.Reachable.sole_default_law`): then the switch may as well decide on a constant
  (`Turn.ends_constant_iff`), and one that decides on a constant is like its default
  (`Node.Alike.soleDefault`). What else a discriminant does is missing from the program
  (`Builder.sole_default_misses_exception`).
-/

namespace StructuredFlow

open Exec

variable {ω : Type}

namespace Node

variable {value : Expr} {n : Node}

theorem defines_soleDefault (value : Expr) (n : Node) (l : LabelId) :
    (switch value [] (some n)).defines l = n.defines l :=
  Bool.false_or _

/-- A switch with only a default calls the default if its discriminant has a value and leaves the
machine as it is; and it calls it for a place in the default. -/
theorem begin_soleDefault {d : Option Descent} {m : Machine ω} (hd : n.Has d)
    (h : d = none → ∃ v, value.eval m = .ok v m) :
    (⟨switch value [] (some n), d, m⟩ : Call ω).begin = .call ⟨n, d, m⟩ (.arms [n]) := by
  cases d with
  | none =>
    obtain ⟨v, hv⟩ := h rfl
    show Turn.reading ((value.eval >>= fun v => select v []) m) _ = _
    rw [Outcome.andThen_of_ok hv]
    rfl
  | some s =>
    show Turn.arm [n] ([n].find? (·.defines s.target)) (some s) m = _
    rw [List.find?_cons_of_pos (hd s rfl)]
    rfl

theorem resume_arms_of_not_reenters {r : Report ω} (h : ¬ n.Reenters r) :
    (Waiting.arms [n]).resume r = .done r := by
  cases r with
  | error e m => rfl
  | ok flow m =>
    cases flow with
    | normal v => rfl
    | throw v => rfl
    | jump l v =>
      have hnone : [n].find? (·.defines l) = none :=
        List.find?_cons_of_neg fun hl => h ⟨l, v, m, rfl, hl⟩
      dsimp only [Waiting.resume]
      rw [hnone]

/-- The only arm of a switch takes the jumps into it as the only statement of a row does. -/
theorem comes_arms_iff {d : Option Descent} {m : Machine ω} {r : Report ω} (hd : n.Has d) :
    (Turn.call ⟨n, d, m⟩ (.arms [n])).Comes r ↔ (n.settling d m).Comes r := by
  have hapart : Apart [n] := List.pairwise_singleton _ _
  have hkeeps : (Waiting.arms [n]).Keeps ω n :=
    Waiting.arms_keeps hapart (List.mem_singleton_self n)
  have hsettled : ∀ r₁, (n.settling d m).Comes r₁ → (Waiting.arms [n]).resume r₁ = .done r₁ := by
    intro r₁ hr₁
    refine resume_arms_of_not_reenters fun hre => ?_
    obtain ⟨l, v, m₁, rfl, hl⟩ := hre
    rw [← begin_wrapped hd] at hr₁
    exact block_retains [] [n] d m _ hr₁ ⟨l, v, m₁, rfl, (defines_wrapped n l).trans hl⟩
  constructor
  · rintro ⟨k, hk⟩
    obtain ⟨r₁, k₁, hsettles, -, hk₁⟩ := hk.settles hkeeps hd
    rw [hsettled r₁ hsettles] at hk₁
    cases hk₁
    exact hsettles
  · rintro ⟨k, hk⟩
    refine hk.unsettles hkeeps hd ?_
    rw [hsettled r ⟨k, hk⟩]
    exact ⟨0, .done⟩

/-- A switch with only a default that decides on a constant is like the default. -/
theorem Alike.soleDefault (c : Constant) (n : Node) :
    n.Alike ω (switch (.const c) [] (some n)) := by
  have hdefines := defines_soleDefault (.const c) n
  have hbegin : ∀ d (m : Machine ω) r, n.Has d →
      ((⟨switch (.const c) [] (some n), d, m⟩ : Call ω).begin.Comes r ↔
        (⟨block [] [n], d, m⟩ : Call ω).begin.Comes r) := by
    intro d m r hd
    rw [begin_soleDefault hd fun _ => ⟨_, rfl⟩, begin_wrapped hd]
    exact comes_arms_iff hd
  refine (Alike.wrapped n).trans ⟨.of_begin (fun l => ?_) fun d m r hd hr => ?_,
    .of_begin (fun l => ?_) fun d m r hd hr => ?_⟩
  · exact (hdefines l).trans (defines_wrapped n l).symm
  · exact (hbegin d m r fun s hs => (defines_wrapped n _).symm.trans (hd s hs)).mpr hr
  · exact (defines_wrapped n l).trans (hdefines l).symm
  · exact (hbegin d m r fun s hs => (hdefines _).symm.trans (hd s hs)).mp hr

end Node

/-! ## A constant for the discriminant -/

section

variable {value : Expr} {n : Node} {c : Constant}

theorem Node.keepsPlaces_replace {old new : Node} (h : ∀ l, new.defines l = old.defines l) :
    KeepsPlaces (replace old new) :=
  fun n l => defines_replace (h l) n

/-- With a constant for the discriminant of a switch that only has a default, an execution ends as
it does with the discriminant, if that has a value each time and leaves the machine as it is. -/
theorem Turn.ends_constant_iff {t : Turn ω} {k : Nat} {r : Report ω} (c : Constant)
    (h : ∀ m, t.Makes ⟨.switch value [] (some n), none, m⟩ → ∃ v, value.eval m = .ok v m) :
    (t.map (Node.replace (.switch value [] (some n)) (.switch (.const c) [] (some n)))).Ends k r ↔
      t.Ends k r := by
  let f := Node.replace (.switch value [] (some n)) (.switch (.const c) [] (some n))
  have hplaces : Node.KeepsPlaces f := Node.keepsPlaces_replace fun l =>
    (Node.defines_soleDefault (.const c) n l).trans (Node.defines_soleDefault value n l).symm
  have hn : f n = n := Node.replace_eq_self_of_mem_children (List.mem_singleton_self n)
  refine ends_map_iff hplaces fun call hcall => ?_
  obtain ⟨n', d, m⟩ := call
  by_cases hnode : n' = .switch value [] (some n)
  · subst hnode
    show Call.begin ⟨f (.switch value [] (some n)), d, m⟩ = _
    rw [show f _ = _ from Node.replace_self _ _]
    cases d with
    | none =>
      rw [Node.begin_soleDefault n.has_none fun _ => ⟨_, rfl⟩,
        Node.begin_soleDefault n.has_none fun _ => h m hcall]
      show Turn.call ⟨n, none, m⟩ (.arms [n]) = Turn.call ⟨f n, none, m⟩ (.arms [f n])
      rw [hn]
    | some s =>
      show Turn.arm [n] ([n].find? (·.defines s.target)) (some s) m =
        (Turn.arm [n] ([n].find? (·.defines s.target)) (some s) m).map f
      rw [arm_map, ← hplaces.find?_map, List.map_singleton, hn]
  · exact Call.begin_map hplaces (Node.replace_of_ne hnode)

end

namespace Builder

variable {b : Builder} {a : Artifact} {outer : Chain} {s : Scope} {i : Nat} {value : Expr}
  {fall : Label} {d : Scope}

/-- A switch that only has a default becomes the default alone. -/
theorem Built.sole_default_translates {F : Fragment → Prop} (hb : b.Built F)
    (ha : b.assemble = .ok a) (hs : b.top.Within outer s)
    (hi : s.stmts[i]? = some (.switch value [] (some (fall, d)))) :
    ∃ D : Block, b.assembleScope d.frame.id = .ok D.collapse ∧
      b.Translates a s i D.collapse := by
  obtain ⟨n, t, htranslates, ht, hbecomes⟩ := exists_translates ha hs hi
  have hchild : d ∈ s.children :=
    Scope.mem_children.mpr ⟨_, List.mem_of_getElem? hi, List.mem_singleton_self d⟩
  cases hbecomes with
  | soleDefault value' fall' D =>
    simp only [Stmt.map, Option.map_some, Stmt.switch.injEq, Option.some.injEq,
      Prod.mk.injEq] at ht
    exact ⟨D, hb.assembleScope_eq (hs.inside hchild) ht.2.2.2, htranslates⟩
  | switch nonempty =>
    simp only [Stmt.map, List.map_nil, Stmt.switch.injEq] at ht
    exact absurd (List.map_eq_nil_iff.mp ht.2.1.symm) nonempty
  | _ => cases ht

/-- The shortcut of switches that only have a default. Such a switch becomes its default alone. With
the switch in place of the default the program is assembled as well, and with enough steps both give
the same, host calls and exceptions included, in every run in which the discriminant has a value and
leaves the machine as it is each time that the switch is started; as long as no handler and no
cleanup lets out a jump into itself. -/
theorem Reachable.sole_default_law (hb : b.Reachable) (ha : b.assemble = .ok a)
    (hs : b.top.Within outer s) (hi : s.stmts[i]? = some (.switch value [] (some (fall, d))))
    (hconfines : a.body.Confines ω) :
    ∃ n a', b.assembleScope d.frame.id = .ok n ∧ b.Translates a s i n ∧
      (b.changing s.frame.id (setStmt i (.node (.switch value [] (some n))))).assemble = .ok a' ∧
      ∀ (args : List Value) (m : Machine ω),
        (∀ m₁, (Turn.tail (a'.entry args m)).Makes ⟨.switch value [] (some n), none, m₁⟩ →
          ∃ v, value.eval m₁ = .ok v m₁) →
        ∀ r, a.Yields args m r ↔ a'.Yields args m r := by
  obtain ⟨D, hscope, htranslates⟩ := hb.built.sole_default_translates ha hs hi
  have hsole : (Node.switch value [] (some D.collapse)).SoleDefault := ⟨value, D.collapse, rfl⟩
  obtain ⟨a', ha', hparams, hreturn, hbody⟩ := hb.built.assemble_changing ha hs htranslates hsole
  refine ⟨D.collapse, a', hscope, htranslates, ha', fun args m hsteady r => ?_⟩
  let f := Node.replace (.switch value [] (some D.collapse))
    (.switch (.const (.bool true)) [] (some D.collapse))
  have hclear : a.body.Clear ω :=
    ⟨hb.built.placed.places_nodup Block.closes_collapse ha, hconfines⟩
  have halike : a.body.Alike ω (f a'.body) := by
    have hkindred : D.collapse.KindredIfClear ω
        (.switch (.const (.bool true)) [] (some D.collapse)) :=
      .of_alikeIfClear (fun _ => .soleDefault _ _) (Node.switch_retains _ _ _)
    have hbodies := hkindred.replace (.switch value [] (some D.collapse)) a'.body
    rw [hbody] at hbodies
    exact (hbodies hclear).alike
  have hretains : (f a'.body).Retains ω := by
    obtain ⟨-, -, B, -, hbody'⟩ := assemble_ok ha'
    rw [hbody', show f _ = _ from hsole.replace_block _ _]
    exact Node.block_retains _ _
  refine Artifact.yields_congr hparams hreturn fun report => ?_
  have hconstant : ((Turn.tail (a'.entry args m)).map f).Comes report ↔
      (Turn.tail (a'.entry args m)).Comes report :=
    exists_congr fun k => Turn.ends_constant_iff _ hsteady
  rw [← hconstant]
  show _ ↔ (Turn.tail ⟨f a'.body, none, m.prepare a'.params args⟩).Comes report
  rw [Artifact.entry, hparams, Turn.comes_tail, Turn.comes_tail]
  exact halike.begin (retains_of_assembleWith ha) hretains

/-- A switch on a parameter, whose default returns: the default alone and the switch in its place
give the same. -/
theorem sole_default_law_for_a_parameter :
    let x : Symbol := ⟨0, "x", .int⟩
    let n : Node := .goto (.typed 0 .int) (some (.const (.int 7)))
    ∃ (b : Builder) (a a' : Artifact) (m m' : Machine Unit), b.Reachable ∧ b.assemble = .ok a ∧
      b.Translates a b.top 0 n ∧ a.body.Confines Unit ∧
      (b.changing 0 (setStmt 0 (.node (.switch (.var x) [] (some n))))).assemble = .ok a' ∧
      a.Yields [.int 5] m (.ok (.int 7) m') ∧ a'.Yields [.int 5] m (.ok (.int 7) m') := by
  intro x n
  obtain ⟨b, hb⟩ : ∃ b, Builder.create ⟨"f", false⟩ [⟨"x", .int⟩] .int = .ok b := ⟨_, rfl⟩
  have hswitch := (Reachable.create hb).opening 0 (.switchOn ⟨[], .var x⟩)
  have hdefault := hswitch.step (h := .switch ⟨0, 0⟩) (s := .default) rfl
  have hreturn := hdefault.statement 1 (.returnValue .int ⟨[], .const (.int 7)⟩)
  cases hb
  let place : Node := .label (.typed 0 .int) (some (.int 0))
  let switched : Node := .switch (.var x) [] (some n)
  let a : Artifact := ⟨"f", [x], .typed 0 .int, .block [] [n, place]⟩
  let a' : Artifact := ⟨"f", [x], .typed 0 .int, .block [] [switched, place]⟩
  obtain ⟨b, hb, hid, hi, ha, hn, ha'⟩ : ∃ b : Builder, b.Reachable ∧ b.top.frame.id = 0 ∧
      b.top.stmts[0]? = some (.switch (.var x) []
        (some (.internal 1, ⟨⟨1, .plain, [], []⟩, [.node n]⟩))) ∧ b.assemble = .ok a ∧
      b.assembleScope 1 = .ok n ∧
      (b.changing 0 (setStmt 0 (.node switched))).assemble = .ok a' :=
    ⟨_, hreturn, rfl, rfl, rfl, rfl, rfl⟩
  let m : Machine Unit := .new .empty () 0
  have hconfines : a.body.Confines Unit := Node.confines_of_leaks_eq_false (by decide)
  obtain ⟨m', hyields⟩ : ∃ m', a.Yields [.int 5] m (.ok (.int 7) m') :=
    ⟨_, (Artifact.yields_iff rfl).mpr ⟨_, _, .tail (.call .done (.call .done .done)), rfl⟩⟩
  obtain ⟨n', a₁, hn', htranslates, ha₁, hsame⟩ := hb.sole_default_law ha .here hi hconfines
  obtain rfl : n = n' := Except.ok.inj (hn.symm.trans hn')
  rw [hid] at ha₁
  obtain rfl : a' = a₁ := Except.ok.inj (ha'.symm.trans ha₁)
  refine ⟨b, a, a', m, m', hb, ha, htranslates, hconfines, ha', hyields, ?_⟩
  -- The switch is started once, in the machine that the program begins with.
  let m₀ : Machine Unit := m.prepare [x] [.int 5]
  refine (hsame [.int 5] m (fun m₁ hmakes => ?_) _).mp hyields
  cases hmakes with
  | insideTail inner =>
    have inner : (Turn.call ⟨switched, none, m₀⟩ (.row [switched, place] [place])).Makes
        ⟨switched, none, m₁⟩ := inner
    cases inner with
    | call => exact ⟨.int 5, rfl⟩
    | insideCall inner =>
      have inner : (Turn.call ⟨.goto (.typed 0 .int) (some (.const (.int 7))), none, m₀⟩
          (.arms [n])).Makes ⟨.switch (.var x) [] (some n), none, m₁⟩ := inner
      cases inner with
      | insideCall inner => cases inner
      | later ended later =>
        cases ended
        cases later
    | later ended later =>
      have ended : (Turn.call ⟨n, none, m₀⟩ (.arms [n])).Ends _ _ := ended
      cases ended with
      | call inner ended =>
        cases inner
        cases ended
        have later : (Turn.call ⟨.label (.typed 0 .int) (some (.int 0)), some ⟨0, some (.int 7)⟩,
            m₀⟩ (.row [switched, place] [])).Makes ⟨.switch (.var x) [] (some n), none, m₁⟩ := later
        cases later with
        | insideCall inner => cases inner
        | later ended later =>
          cases ended
          cases later

/-- A discriminant that raises an exception: the program goes on with the default as if nothing was
raised, where the switch would end with the exception. -/
theorem sole_default_misses_exception :
    let raising : Expr := .call "raise" [.const (.str "x")] .any
    ∃ (b : Builder) (a a' : Artifact) (fall : Label) (d : Scope) (n : Node)
      (m m₁ m₂ : Machine Journal), b.Reachable ∧ b.assemble = .ok a ∧
        b.top.stmts[0]? = some (.switch raising [] (some (fall, d))) ∧ b.Translates a b.top 0 n ∧
        (b.changing 0 (setStmt 0 (.node (.switch raising [] (some n))))).assemble = .ok a' ∧
        a.body.Confines Journal ∧ a.Yields [] m (.ok (.int 0) m₁) ∧
        a'.Yields [] m (.error (.uncaught (.str "x")) m₂) ∧ ¬ a'.Yields [] m (.ok (.int 0) m₁) := by
  intro raising
  obtain ⟨b, hb⟩ : ∃ b, Builder.create ⟨"f", false⟩ [] .int = .ok b := ⟨_, rfl⟩
  have hswitch := (Reachable.create hb).opening 0 (.switchOn ⟨[], raising⟩)
  have hdefault := hswitch.step (h := .switch ⟨0, 0⟩) (s := .default) rfl
  have hreturn := hdefault.statement 1 (.returnValue .int ⟨[], .const (.int 0)⟩)
  cases hb
  let n : Node := .goto (.typed 0 .int) (some (.const (.int 0)))
  let place : Node := .label (.typed 0 .int) (some (.int 0))
  let a : Artifact := ⟨"f", [], .typed 0 .int, .block [] [n, place]⟩
  let a' : Artifact := ⟨"f", [], .typed 0 .int, .block [] [.switch raising [] (some n), place]⟩
  let m : Machine Journal := .new .standard .empty 0
  obtain ⟨m₁, hyields⟩ : ∃ m₁, a.Yields [] m (.ok (.int 0) m₁) :=
    ⟨_, (Artifact.yields_iff rfl).mpr ⟨_, _, .tail (.call .done (.call .done .done)), rfl⟩⟩
  obtain ⟨m₂, hyields'⟩ : ∃ m₂, a'.Yields [] m (.error (.uncaught (.str "x")) m₂) :=
    ⟨_, (Artifact.yields_iff rfl).mpr ⟨_, _, .tail (.call .done .done), rfl⟩⟩
  have hconfines : a.body.Confines Journal := Node.confines_of_leaks_eq_false (by decide)
  have hn : n ∈ a.body.subnodes := List.mem_cons_of_mem _ List.mem_cons_self
  refine ⟨_, a, a', _, _, n, m, m₁, m₂, hreturn, rfl, rfl, ⟨_, rfl, rfl, hn⟩, rfl, hconfines,
    hyields, hyields', fun h => ?_⟩
  cases hyields'.unique h

end Builder

end StructuredFlow
