/-
  Programs with a state that can fail, read from their outcome: when a program succeeds, with which
  result and state (`…_ok`), and when it fails (`…_error`). A program in parts is taken apart by
  rewriting with these.
-/

namespace StructuredFlow

namespace Outcome

variable {ε σ α β : Type} {s s' : σ} {e : ε}

@[simp] theorem pure_ok {a r : α} : (pure a : EStateM ε σ α) s = .ok r s' ↔ r = a ∧ s' = s := by
  constructor
  · intro h; cases h; exact ⟨rfl, rfl⟩
  · rintro ⟨rfl, rfl⟩; rfl

@[simp] theorem pure_error {a : α} : (pure a : EStateM ε σ α) s = .error e s' ↔ False := by
  constructor
  · intro h; cases h
  · exact False.elim

@[simp] theorem throw_ok {cause : ε} {r : α} :
    (throw cause : EStateM ε σ α) s = .ok r s' ↔ False := by
  constructor
  · intro h; cases h
  · exact False.elim

@[simp] theorem throw_error {cause : ε} :
    (throw cause : EStateM ε σ α) s = .error e s' ↔ e = cause ∧ s' = s := by
  constructor
  · intro h; cases h; exact ⟨rfl, rfl⟩
  · rintro ⟨rfl, rfl⟩; rfl

@[simp] theorem andThen_ok {x : EStateM ε σ α} {f : α → EStateM ε σ β} {r : β} :
    (x >>= f) s = .ok r s' ↔ ∃ a s₁, x s = .ok a s₁ ∧ f a s₁ = .ok r s' := by
  show EStateM.bind x f s = _ ↔ _
  unfold EStateM.bind
  cases x s with
  | ok a s₁ =>
    constructor
    · exact fun h => ⟨a, s₁, rfl, h⟩
    · rintro ⟨_, _, h, h'⟩; cases h; exact h'
  | error e s₁ => simp

@[simp] theorem andThen_error {x : EStateM ε σ α} {f : α → EStateM ε σ β} :
    (x >>= f) s = .error e s' ↔
      x s = .error e s' ∨ ∃ a s₁, x s = .ok a s₁ ∧ f a s₁ = .error e s' := by
  show EStateM.bind x f s = _ ↔ _
  unfold EStateM.bind
  cases x s with
  | ok a s₁ =>
    constructor
    · exact fun h => .inr ⟨a, s₁, rfl, h⟩
    · rintro (h | ⟨_, _, h, h'⟩)
      · cases h
      · cases h; exact h'
  | error e s₁ => simp

/-- After a part that has succeeded a program goes on with the rest. -/
theorem andThen_of_ok {x : EStateM ε σ α} {f : α → EStateM ε σ β} {a : α} (hx : x s = .ok a s') :
    (x >>= f) s = f a s' := by
  show EStateM.bind x f s = _
  unfold EStateM.bind
  rw [hx]

/-- Parts with one outcome go on alike. -/
theorem andThen_of_eq {x y : EStateM ε σ α} {f : α → EStateM ε σ β} (h : x s = y s') :
    (x >>= f) s = (y >>= f) s' := by
  show EStateM.bind x f s = EStateM.bind y f s'
  unfold EStateM.bind
  rw [h]

@[simp] theorem get_andThen {f : σ → EStateM ε σ β} :
    ((get : EStateM ε σ σ) >>= f) s = f s s := rfl

@[simp] theorem get_ok {r : σ} : (get : EStateM ε σ σ) s = .ok r s' ↔ r = s ∧ s' = s :=
  pure_ok (a := s)

@[simp] theorem get_error : (get : EStateM ε σ σ) s = .error e s' ↔ False :=
  pure_error (a := s)

@[simp] theorem map_ok {x : EStateM ε σ α} {f : α → β} {r : β} :
    (f <$> x) s = .ok r s' ↔ ∃ a, x s = .ok a s' ∧ r = f a := by
  show EStateM.map f x s = _ ↔ _
  unfold EStateM.map
  cases x s with
  | ok a s₁ =>
    constructor
    · intro h; cases h; exact ⟨a, rfl, rfl⟩
    · rintro ⟨_, h, rfl⟩; cases h; rfl
  | error e s₁ => simp

@[simp] theorem map_error {x : EStateM ε σ α} {f : α → β} :
    (f <$> x) s = .error e s' ↔ x s = .error e s' := by
  show EStateM.map f x s = _ ↔ _
  unfold EStateM.map
  cases x s with
  | ok a s₁ => simp
  | error e s₁ =>
    constructor
    · intro h; cases h; rfl
    · intro h; cases h; rfl

@[simp] theorem modify_ok {f : σ → σ} {u : PUnit} :
    (modify f : EStateM ε σ PUnit) s = .ok u s' ↔ s' = f s := by
  constructor
  · intro h; cases h; rfl
  · rintro rfl; rfl

@[simp] theorem modify_error {f : σ → σ} :
    (modify f : EStateM ε σ PUnit) s = .error e s' ↔ False := by
  constructor
  · intro h; cases h
  · exact False.elim

@[simp] theorem modifyGet_ok {f : σ → α × σ} {r : α} :
    (modifyGet f : EStateM ε σ α) s = .ok r s' ↔ r = (f s).1 ∧ s' = (f s).2 := by
  constructor
  · intro h; cases h; exact ⟨rfl, rfl⟩
  · rintro ⟨rfl, rfl⟩; rfl

@[simp] theorem modifyGet_error {f : σ → α × σ} :
    (modifyGet f : EStateM ε σ α) s = .error e s' ↔ False := by
  constructor
  · intro h; cases h
  · exact False.elim

@[simp] theorem ofExcept_ok {x : Except ε α} {r : α} :
    (MonadExcept.ofExcept x : EStateM ε σ α) s = .ok r s' ↔ x = .ok r ∧ s' = s := by
  cases x with
  | ok a => simp [MonadExcept.ofExcept, eq_comm]
  | error e => simp [MonadExcept.ofExcept]

@[simp] theorem ofExcept_error {x : Except ε α} :
    (MonadExcept.ofExcept x : EStateM ε σ α) s = .error e s' ↔ x = .error e ∧ s' = s := by
  cases x with
  | ok a => simp [MonadExcept.ofExcept]
  | error e => simp [MonadExcept.ofExcept, eq_comm]

@[simp] theorem ite_run {p : Prop} [Decidable p] {x y : EStateM ε σ α} {r : EStateM.Result ε σ α} :
    (if p then x else y) s = r ↔ (p ∧ x s = r) ∨ (¬p ∧ y s = r) := by
  by_cases hp : p <;> simp [hp]

end Outcome

end StructuredFlow
