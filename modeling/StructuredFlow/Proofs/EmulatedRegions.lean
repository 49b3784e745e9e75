import StructuredFlow.Proofs.EmulatedParts

/-
  A guarded region whose parts are emulated is emulated. The body is entered again on the jumps into
  it. The handlers and the cleanup are not: a jump into a handler is refused wherever it comes from,
  and the cleanup's own flow replaces the pending one. So these have to let out no jumps into them.
-/

namespace StructuredFlow

open Exec Node

variable {ω : Type}

/-- A handler for the same exceptions, with the same variable. No jumps into the bodies come out of
them; out of a handler they would not get back in. -/
structure Handler.Emulated (ω : Type) (h h' : Handler Node) : Prop where
  kind : h'.kind = h.kind
  binding : h'.binding = h.binding
  body : h'.body.Emulates ω h.body
  settled : h.body.Settled ω
  settled' : h'.body.Settled ω

/-- The parts of a guarded region are emulated. -/
structure RegionEmulated (ω : Type) (body body' : Node) (handlers handlers' : List (Handler Node))
    (cleanup cleanup' : Option Node) : Prop where
  body : body'.Emulates ω body
  handlers : List.Forall₂ (Handler.Emulated ω) handlers handlers'
  cleanup : Option.Rel (fun c c' => c'.Emulates ω c ∧ c.Settled ω ∧ c'.Settled ω) cleanup cleanup'

section Region

variable {body body' : Node} {handlers handlers' : List (Handler Node)}
  {cleanup cleanup' : Option Node}

/-- Turns of two guarded regions. -/
inductive RegionAlike (body body' : Node) (handlers handlers' : List (Handler Node))
    (cleanup cleanup' : Option Node) : Turn ω → Turn ω → Prop
  | done (r) : RegionAlike body body' handlers handlers' cleanup cleanup' (.done r) (.done r)
  | region (d m) : RegionAlike body body' handlers handlers' cleanup cleanup'
      (.region body handlers cleanup d m) (.region body' handlers' cleanup' d m)
  | clean (pending m) : RegionAlike body body' handlers handlers' cleanup cleanup'
      (.clean cleanup pending m) (.clean cleanup' pending m)
  | handle {h h' : Handler Node} {v m} (emulated : h.Emulated ω h') :
      RegionAlike body body' handlers handlers' cleanup cleanup'
        (.call ⟨h.body, none, h.enter v m⟩ (.handling body handlers cleanup))
        (.call ⟨h'.body, none, h'.enter v m⟩ (.handling body' handlers' cleanup'))

theorem Waiting.guarded_keeps : (Waiting.guarded body handlers cleanup).Keeps ω body := by
  intro d m l v m' _ _ hl
  have hregion : regionDefines l body handlers cleanup = true := by
    rw [regionDefines, hl, Bool.true_or, Bool.true_or]
  have hentrance : entrance body cleanup (some ⟨l, v⟩) = .body := if_pos hl
  dsimp only [resume, Turn.leaveRegion]
  rw [if_pos hregion, Turn.region, hentrance]

namespace RegionEmulated

variable (h : RegionEmulated ω body body' handlers handlers' cleanup cleanup')
include h

theorem any_cleanup (l : LabelId) :
    cleanup'.any (·.defines l) = cleanup.any (·.defines l) := by
  cases h.cleanup with
  | none => rfl
  | some hc => exact hc.1.defines l

theorem regionDefines_eq (l : LabelId) :
    regionDefines l body' handlers' cleanup' = regionDefines l body handlers cleanup := by
  have hany : handlers'.any (·.body.defines l) = handlers.any (·.body.defines l) :=
    any_eq_of_forall₂ (fun _ _ hh => hh.body.defines l) h.handlers
  unfold regionDefines
  rw [h.body.defines, h.any_cleanup, hany]

theorem leaveRegion (flow : Flow) (m : Machine ω) :
    RegionAlike body body' handlers handlers' cleanup cleanup'
      (.leaveRegion body handlers cleanup flow m) (.leaveRegion body' handlers' cleanup' flow m) := by
  cases flow with
  | normal v => exact .clean _ _
  | throw v => exact .clean _ _
  | jump l v =>
    dsimp only [Turn.leaveRegion]
    rw [h.regionDefines_eq]
    split
    · exact .region _ _
    · exact .clean _ _

theorem resume_guarded (r : Report ω) :
    RegionAlike body body' handlers handlers' cleanup cleanup'
      ((Waiting.guarded body handlers cleanup).resume r)
      ((Waiting.guarded body' handlers' cleanup').resume r) := by
  cases r with
  | error e m => exact .done _
  | ok flow m =>
    cases flow with
    | normal v => exact .clean _ _
    | jump l v => exact h.leaveRegion (.jump l v) m
    | throw v =>
      have hfind : Option.Rel (Handler.Emulated ω) (handlers.find? (v.isInstanceOf ·.kind))
          (handlers'.find? (v.isInstanceOf ·.kind)) :=
        rel_find? (fun _ _ hh => congrArg _ hh.kind) h.handlers
      dsimp only [Waiting.resume]
      generalize handlers.find? (v.isInstanceOf ·.kind) = found at hfind ⊢
      generalize handlers'.find? (v.isInstanceOf ·.kind) = found' at hfind ⊢
      cases hfind with
      | none => exact .clean _ _
      | some hh => exact .handle hh

/-- Both regions are entered at their bodies, or in their cleanups, or not at all. -/
theorem entrance_alike (d : Option Descent) :
    (entrance body cleanup d = .body ∧ entrance body' cleanup' d = .body ∧ body.Has d) ∨
      (∃ c c', entrance body cleanup d = .cleanup c ∧ entrance body' cleanup' d = .cleanup c' ∧
        c.Has d ∧ c'.Emulates ω c ∧ c.Settled ω ∧ c'.Settled ω) ∨
      ∃ l, entrance body cleanup d = .handler l ∧ entrance body' cleanup' d = .handler l := by
  cases d with
  | none => exact .inl ⟨rfl, rfl, body.has_none⟩
  | some s =>
    unfold entrance
    dsimp only
    rw [h.body.defines]
    by_cases hbody : body.defines s.target = true
    · rw [if_pos hbody, if_pos hbody]
      exact .inl ⟨rfl, rfl, has_some hbody⟩
    · rw [if_neg hbody, if_neg hbody]
      refine .inr ?_
      cases h.cleanup with
      | none => exact .inr ⟨_, rfl, rfl⟩
      | @some c c' hc =>
        rw [Option.filter_some, Option.filter_some, hc.1.defines]
        by_cases hcleanup : c.defines s.target = true
        · rw [if_pos hcleanup, if_pos hcleanup]
          exact .inl ⟨c, c', rfl, rfl, has_some hcleanup, hc⟩
        · rw [if_neg hcleanup, if_neg hcleanup]
          exact .inr ⟨_, rfl, rfl⟩

end RegionEmulated

theorem RegionAlike.matches
    (hregion : RegionEmulated ω body body' handlers handlers' cleanup cleanup') {t t' : Turn ω}
    (h : RegionAlike body body' handlers handlers' cleanup cleanup' t t') :
    Turn.Matches (RegionAlike body body' handlers handlers' cleanup cleanup') t t' := by
  cases h with
  | done r => exact .done r
  | region d m =>
    unfold Turn.region
    rcases hregion.entrance_alike d with ⟨hentrance, hentrance', hhas⟩ |
      ⟨c, c', hentrance, hentrance', hhas, hc, hsettled, hsettled'⟩ | ⟨l, hentrance, hentrance'⟩
    · rw [hentrance, hentrance']
      exact .call hregion.body hhas Waiting.guarded_keeps Waiting.guarded_keeps
        hregion.resume_guarded
    · rw [hentrance, hentrance']
      exact .tail fun r hr => hc.begin hsettled hsettled' hhas hr
    · rw [hentrance, hentrance']
      exact .done _
  | clean pending m =>
    unfold Turn.clean
    cases hregion.cleanup with
    | none => exact .done _
    | some hc =>
      obtain ⟨hc, hsettled, hsettled'⟩ := hc
      refine .call hc (has_none _) (hsettled.keeps _) (hsettled'.keeps _) fun r => ?_
      cases r with
      | error e m => exact .done _
      | ok flow m => cases flow <;> exact .done _
  | @handle h h' v m emulated =>
    have henter : h'.enter v m = h.enter v m := by
      unfold Handler.enter
      rw [emulated.binding]
    rw [henter]
    refine .call emulated.body (has_none _) (emulated.settled.keeps _)
      (emulated.settled'.keeps _) fun r => ?_
    cases r with
    | error e m => exact .done _
    | ok flow m => exact hregion.leaveRegion flow m.endHandling

theorem Node.Emulates.attempt
    (hregion : RegionEmulated ω body body' handlers handlers' cleanup cleanup') :
    (Node.attempt body' handlers' cleanup').Emulates ω (.attempt body handlers cleanup) := by
  refine .of_begin (fun l => ?_) fun d m r _ hr => ?_
  · have hbodies : Emulated ω (handlers.map Handler.body) (handlers'.map Handler.body) := by
      refine List.forall₂_map_left_iff.mpr (List.forall₂_map_right_iff.mpr ?_)
      exact hregion.handlers.imp fun _ _ hh => hh.body
    have hcleanup : Emulated ω cleanup.toList cleanup'.toList := by
      cases hregion.cleanup with
      | none => exact .nil
      | some hc => exact .cons hc.1 .nil
    rw [Node.defines_eq, Node.defines_eq]
    exact congrArg _ (emulated_any (.cons hregion.body (List.rel_append hbodies hcleanup)) l)
  · exact Turn.Matches.comes (fun _ _ => RegionAlike.matches hregion) (.region d m) hr

end Region

end StructuredFlow
