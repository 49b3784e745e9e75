import StructuredFlow.Proofs.TurnsFollowed

/-
  The step limit only cuts runs off. What a run does in its steps does not depend on the limit, and
  the error for the limit goes past handlers and cleanups, so a run that ends before its limit ends
  in the same way under a higher one (`Artifact.run_raised`), and what a limit cuts off a lower one
  cuts off as well.
-/

namespace StructuredFlow

variable {ω : Type}

open Outcome Turn

namespace Artifact

variable {limit limit' : Nat}

/-- The run stops for a step limit. -/
def CutOff (r : EStateM.Result EvalError (Machine ω) Value) : Prop :=
  ∃ limit m, r = .error (.stepLimit limit) m

/-- Under a higher limit a run comes out as under a lower one, unless that one cuts it off. -/
theorem run_raised (a : Artifact) (args : List Value) (m : Machine ω) (h : limit ≤ limit') :
    CutOff (a.run args { m with stepLimit := limit }) ∨
      a.run args { m with stepLimit := limit' } =
        mapState (fun m' => { m' with stepLimit := limit' })
          (a.run args { m with stepLimit := limit }) := by
  by_cases hlen : args.length = a.params.length
  · rcases run_limited (m := m) hlen limit with ⟨k, report, hends, hk, hrun⟩ | ⟨⟨m', hrun⟩, -⟩
    · rcases run_limited (m := m) hlen limit' with ⟨k', report', hends', -, hrun'⟩ | ⟨-, hlong⟩
      · obtain ⟨rfl, rfl⟩ := hends.unique hends'
        rw [hrun, hrun']
        cases a.conclude report <;> exact .inr rfl
      · have := hlong k report hends
        omega
    · exact .inl ⟨_, _, hrun⟩
  · rw [run_of_length_ne hlen, run_of_length_ne hlen]
    exact .inr rfl

/-- The step limit never changes an answer. A run that ends under a limit with anything but the
error for it comes out under a higher limit just so: with the same result, the same world of the
host, so after the same calls of host functions in the same order, the same log of disposals and
the same count of steps. And a run that a limit cuts off is cut off by each lower one. -/
theorem run_limit_transparent (a : Artifact) (args : List Value) (m : Machine ω)
    (h : limit ≤ limit') :
    (¬CutOff (a.run args { m with stepLimit := limit }) →
      a.run args { m with stepLimit := limit' } =
        mapState (fun m' => { m' with stepLimit := limit' })
          (a.run args { m with stepLimit := limit })) ∧
    (CutOff (a.run args { m with stepLimit := limit' }) →
      CutOff (a.run args { m with stepLimit := limit })) := by
  have hraised := run_raised a args m h
  refine ⟨hraised.resolve_left, fun ⟨l, m', hcut⟩ => ?_⟩
  rcases hraised with hcut' | hsame
  · exact hcut'
  · rw [hsame] at hcut
    cases hrun : a.run args { m with stepLimit := limit } with
    | ok v m₁ =>
      rw [hrun] at hcut
      cases hcut
    | error e m₁ =>
      rw [hrun] at hcut
      cases hcut
      exact ⟨l, m₁, rfl⟩

/-- A handler for every exception, around a call that the host takes down: three steps are enough
for the run, and two are not. -/
theorem run_limit_transparent_in_handler :
    ∃ (a : Artifact) (m : Machine (List Value)), 3 ≤ 10 ∧
      ¬CutOff (a.run [] { m with stepLimit := 3 }) ∧
      a.run [] { m with stepLimit := 10 } =
        mapState (fun m' => { m' with stepLimit := 10 }) (a.run [] { m with stepLimit := 3 }) ∧
      (final (a.run [] { m with stepLimit := 3 })).world = [.int 7] ∧
      CutOff (a.run [] { m with stepLimit := 2 }) := by
  let a : Artifact := ⟨"f", [], .internal 0,
    .attempt (.eval (.call "g" [.const (.int 7)] .void)) [⟨.any, none, .nop⟩] (some .nop)⟩
  let host : Host (List Value) :=
    Host.empty.register "g" fun args world => .ok .void (world ++ args)
  have hends : ¬CutOff (a.run [] { (Machine.new host [] 0) with stepLimit := 3 }) := by
    rintro ⟨_, _, h⟩
    cases h
  refine ⟨a, .new host [] 0, by decide, hends, ?_, rfl, ⟨_, _, rfl⟩⟩
  exact (run_limit_transparent a [] (.new host [] 0) (by decide)).1 hends

end Artifact

end StructuredFlow
