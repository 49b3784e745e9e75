import StructuredFlow.Proofs.FragmentsWithoutCaptures
import StructuredFlow.Proofs.NamesStable

/-
  Symbols that do not belong to a builder. A variable in a fragment is known by its number, and
  another builder gives out the same numbers. So where captures are forbidden, a variable of an
  accepted fragment has the number of exactly one symbol of the builder, and that symbol is visible;
  but its name and its type are what the fragment says, and only variables that came in place of a
  placeholder are the symbol itself (`Reachable.captures_excluded`). A symbol of another builder
  whose number is not that of a visible symbol is refused; one with the number of a visible symbol is
  not, whatever its type is (`foreign_symbol_accepted`).
-/

namespace StructuredFlow

namespace Chain

variable {c : Chain} {x : Symbol}

/-- What is visible has the number of a symbol on the chain. -/
theorem isVisible_iff : c.isVisible x = true ↔ ∃ y ∈ c.flatMap Frame.symbols, y.id = x.id := by
  simp only [isVisible, Frame.owns, List.any_eq_true, beq_iff_eq, List.mem_flatMap]
  constructor
  · rintro ⟨fr, hfr, y, hy, hid⟩
    exact ⟨y, ⟨fr, hfr, hy⟩, hid⟩
  · rintro ⟨y, ⟨fr, hfr, hy⟩, hid⟩
    exact ⟨fr, hfr, y, hy, hid⟩

/-- What a name stands for is a symbol on the chain. -/
theorem mem_symbols_of_lookup {name : String} (h : c.lookup name = some x) :
    x ∈ c.flatMap Frame.symbols := by
  obtain ⟨fr, hfr, hx⟩ := List.exists_of_findSome?_eq_some h
  exact List.mem_flatMap.mpr ⟨fr, hfr, List.mem_of_find?_eq_some hx⟩

end Chain

namespace Build

variable {b : Builder} {id : ScopeId} {c : Chain}

theorem resolve_of_chain? (hc : b.top.chain? id = some c) (f : Fragment) :
    resolve id f b =
      match f.resolveIn (b.context id) with
      | .ok e => .ok e b
      | .error cause => .error cause b := by
  have hchain : Build.chain id b = .ok c b := chain_ok.mpr ⟨hc, rfl⟩
  show EStateM.bind _ _ b = _
  rw [EStateM.bind, hchain]
  show (MonadExcept.ofExcept (f.resolveIn (b.context id)) : Build Expr) b = _
  cases f.resolveIn (b.context id) <;> rfl

theorem resolve_of_no_chain (hc : b.top.chain? id = none) (f : Fragment) :
    resolve id f b = .error (.unknownScope id) b :=
  Outcome.andThen_error.mpr (.inl (chain_error.mpr ⟨hc, rfl, rfl⟩))

end Build

namespace Builder

variable {b : Builder} {id : ScopeId} {f : Fragment} {e : Expr} {x : Symbol}

theorem isVisible_iff :
    b.isVisible id x = true ↔ ∃ y ∈ (b.chain id).flatMap Frame.symbols, y.id = x.id :=
  Chain.isVisible_iff

theorem mem_owned_of_mem_chain (h : x ∈ (b.chain id).flatMap Frame.symbols) : x ∈ b.owned := by
  obtain ⟨fr, hfr, hx⟩ := List.mem_flatMap.mp h
  exact List.mem_flatMap.mpr ⟨fr, mem_frames_of_mem_chain hfr, hx⟩

/-- A symbol of the builder is the only one of its number. -/
theorem Numbered.eq_of_id (h : b.Numbered) {y : Symbol} (hx : x ∈ b.owned) (hy : y ∈ b.owned)
    (hid : x.id = y.id) : x = y :=
  List.inj_on_of_nodup_map h.symbols hx hy hid

/-- A variable of an accepted fragment: the symbol of its number is visible, and the variable is
this symbol or was in the fragment. -/
theorem Numbered.symbol_of_resolveIn (h : b.Numbered) (off : b.options.allowCaptures = false)
    (hf : f.resolveIn (b.context id) = .ok e) (hx : x ∈ e.vars) :
    ∃ y ∈ (b.chain id).flatMap Frame.symbols, y.id = x.id ∧
      (∀ z ∈ b.owned, z.id = x.id → z = y) ∧ (x = y ∨ x ∈ f.body.vars) := by
  obtain ⟨hvisible, hvars⟩ := Fragment.filled_of_resolveIn off hf
  rcases hvars x hx with hx | ⟨name, hname⟩
  · obtain ⟨y, hy, hid⟩ := isVisible_iff.mp (hvisible x hx)
    refine ⟨y, hy, hid, fun z hz hzid => ?_, .inr hx⟩
    exact h.eq_of_id hz (mem_owned_of_mem_chain hy) (hzid.trans hid.symm)
  · have hy := Chain.mem_symbols_of_lookup hname
    exact ⟨x, hy, rfl, fun z hz hzid => h.eq_of_id hz (mem_owned_of_mem_chain hy) hzid, .inl rfl⟩

/-- A fragment with a variable out of sight is refused; if nothing else is wrong with it, then for the
first such variable. -/
theorem refused_of_invisible (off : b.options.allowCaptures = false) (hx : x ∈ f.body.vars)
    (hinvisible : b.isVisible id x = false) :
    (∃ cause, Build.resolve id f b = .error cause b) ∧
      ((∃ c, b.top.chain? id = some c) → f.Bound (b.context id) →
        ∃ y, f.body.vars.find? (fun z => !b.isVisible id z) = some y ∧
          Build.resolve id f b = .error (.unauthorizedCapture y.render) b) := by
  constructor
  · cases hc : b.top.chain? id with
    | none => exact ⟨_, Build.resolve_of_no_chain hc f⟩
    | some c =>
      rw [Build.resolve_of_chain? hc]
      cases hf : f.resolveIn (b.context id) with
      | error cause => exact ⟨cause, rfl⟩
      | ok e =>
        have hvisible := (Fragment.filled_of_resolveIn off hf).1 x hx
        exact absurd (hinvisible.symm.trans hvisible) Bool.false_ne_true
  · rintro ⟨c, hc⟩ hbound
    cases hfirst : f.body.vars.find? fun z => !b.isVisible id z with
    | none =>
      have hvisible := List.find?_eq_none.mp hfirst x hx
      rw [hinvisible] at hvisible
      exact absurd rfl hvisible
    | some y =>
      refine ⟨y, rfl, ?_⟩
      rw [Build.resolve_of_chain? hc, hbound.resolveIn_capture off hfirst]

/-- Where captures are forbidden, whatever a fragment is resolved to mentions visible symbols only,
by their numbers: each of its variables has the number of exactly one symbol of the builder, which
is visible, and is that symbol unless it was in the fragment before. If the variables that the
fragment brings along are what the builder knows under their numbers, all variables of the result
are visible symbols of the builder. A variable that has no visible symbol's number has the fragment
refused, as an unauthorized capture of the first such variable if nothing else is wrong. -/
theorem Reachable.captures_excluded (h : b.Reachable) (off : b.options.allowCaptures = false)
    (id : ScopeId) (f : Fragment) :
    (∀ e b', Build.resolve id f b = .ok e b' →
      (∀ x ∈ e.vars, ∃ y ∈ (b.chain id).flatMap Frame.symbols, y.id = x.id ∧
        (∀ z ∈ b.owned, z.id = x.id → z = y) ∧ (x = y ∨ x ∈ f.body.vars)) ∧
      ((∀ x ∈ f.body.vars, ∀ z ∈ b.owned, z.id = x.id → z = x) →
        ∀ x ∈ e.vars, x ∈ (b.chain id).flatMap Frame.symbols)) ∧
    ∀ x ∈ f.body.vars, (∀ y ∈ (b.chain id).flatMap Frame.symbols, y.id ≠ x.id) →
      (∃ cause, Build.resolve id f b = .error cause b) ∧
        (b.hasScope id = true → f.Bound (b.context id) →
          ∃ y, f.body.vars.find? (fun z => !b.isVisible id z) = some y ∧
            Build.resolve id f b = .error (.unauthorizedCapture y.render) b) := by
  have hnumbered := h.built.numbered
  constructor
  · intro e b' hresolve
    obtain ⟨-, hf, -⟩ := Build.resolve_ok.mp hresolve
    refine ⟨fun x hx => hnumbered.symbol_of_resolveIn off hf hx, fun hagree x hx => ?_⟩
    obtain ⟨y, hy, hid, -, hxy⟩ := hnumbered.symbol_of_resolveIn off hf hx
    rcases hxy with rfl | hxf
    · exact hy
    · exact hagree x hxf y (mem_owned_of_mem_chain hy) hid ▸ hy
  · intro x hx hforeign
    have hinvisible : b.isVisible id x = false := by
      rw [Bool.eq_false_iff, Ne, isVisible_iff]
      rintro ⟨y, hy, hid⟩
      exact hforeign y hy hid
    obtain ⟨hrefused, hcapture⟩ := refused_of_invisible off hx hinvisible
    refine ⟨hrefused, fun found => hcapture ?_⟩
    exact Scope.chain?_isSome (h.built.housed id (of_decide_eq_true found))

/-- A parameter is read through a placeholder and as itself; next to it, a symbol of a number that is
not given out is a capture. -/
theorem captures_excluded_in_sum :
    ∃ b : Builder, b.Reachable ∧ b.options.allowCaptures = false ∧
      (∃ e, Build.resolve 0 ⟨[⟨"x", .int⟩],
          .binary (.arith .add) (.param ⟨"x", .int⟩) (.var ⟨0, "x", .int⟩)⟩ b = .ok e b ∧
        ∀ x ∈ e.vars, x ∈ (b.chain 0).flatMap Frame.symbols) ∧
      Build.resolve 0 ⟨[⟨"x", .int⟩],
          .binary (.arith .add) (.param ⟨"x", .int⟩) (.var ⟨9, "z", .int⟩)⟩ b =
        .error (.unauthorizedCapture "z%9") b := by
  obtain ⟨b, hb⟩ : ∃ b, Builder.create ⟨"f", false⟩ [⟨"x", .int⟩] .int = .ok b := ⟨_, rfl⟩
  have hreachable := Reachable.create hb
  cases hb
  obtain ⟨accepted, -⟩ := hreachable.captures_excluded rfl 0
    ⟨[⟨"x", .int⟩], .binary (.arith .add) (.param ⟨"x", .int⟩) (.var ⟨0, "x", .int⟩)⟩
  obtain ⟨-, refused⟩ := hreachable.captures_excluded rfl 0
    ⟨[⟨"x", .int⟩], .binary (.arith .add) (.param ⟨"x", .int⟩) (.var ⟨9, "z", .int⟩)⟩
  refine ⟨_, hreachable, rfl, ⟨_, rfl, (accepted _ _ rfl).2 (by decide)⟩, ?_⟩
  obtain ⟨y, hy, hrefused⟩ := (refused ⟨9, "z", .int⟩ (by decide) (by decide)).2 rfl
    ⟨by decide, by decide⟩
  cases hy
  exact hrefused

/-- The parameter of another builder, a text, is accepted in the place of a builder's own integer
parameter, since it has the same number; it is no symbol of the builder. -/
theorem foreign_symbol_accepted :
    ∃ b b₂ : Builder, b.Reachable ∧ b₂.Reachable ∧ b.options.allowCaptures = false ∧
      ⟨0, "y", .str⟩ ∈ b₂.owned ∧
      Build.resolve 0 ⟨[], .var ⟨0, "y", .str⟩⟩ b = .ok (.var ⟨0, "y", .str⟩) b ∧
      b.owned = [⟨0, "x", .int⟩] := by
  obtain ⟨b, hb⟩ : ∃ b, Builder.create ⟨"f", false⟩ [⟨"x", .int⟩] .int = .ok b := ⟨_, rfl⟩
  obtain ⟨b₂, hb₂⟩ : ∃ b, Builder.create ⟨"g", false⟩ [⟨"y", .str⟩] .int = .ok b := ⟨_, rfl⟩
  have hreachable := Reachable.create hb
  have hreachable₂ := Reachable.create hb₂
  cases hb
  cases hb₂
  exact ⟨_, _, hreachable, hreachable₂, rfl, List.mem_singleton_self _, rfl, rfl⟩

end Builder

end StructuredFlow
