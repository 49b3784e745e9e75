import StructuredFlow.Proofs.EvaluationFails

/-
  The logical operators. Wherever an evaluation comes to one, its left operand is evaluated, and
  then its right operand unless the value on the left settles the matter; what comes from the right
  has to be a bool (`Expr.logical_ok`, `Expr.logical_refused`). The value on the left is only
  compared with the one that decides. So the operator is a conjunction or disjunction of bools if
  its left operand is one (`Expr.Starts.logical_law`), which is certain of negations, comparisons
  and logical operators (`Expr.IsCondition.judged`) and of well-typed operands
  (`Expr.WellTyped.judged`); any other value on the left passes for one that does not decide
  (`Expr.number_passes_for_bool`).
-/

namespace StructuredFlow

open Outcome

variable {ω : Type}

/-- What a logical operator makes of two bools. -/
def BinaryOp.combine (op : BinaryOp) (x y : Bool) : Bool :=
  if op = .and then x && y else x || y

namespace Eval

/-- A bool on the left decides if what is on the right makes no difference. -/
theorem decides_bool {op : BinaryOp} (hop : op.isLogical = true) (x : Bool) :
    decides op (.bool x) = true ↔ op.combine x false = op.combine x true := by
  cases op with
  | and | or => cases x <;> decide
  | _ => cases hop

theorem combine_of_decides {op : BinaryOp} {x : Bool} (h : decides op (.bool x) = true) (y : Bool) :
    op.combine x y = x := by
  cases op with
  | and | or => cases x <;> cases y <;> trivial
  | _ => cases h

theorem combine_of_undecided {op : BinaryOp} {x : Bool} (hop : op.isLogical = true)
    (h : decides op (.bool x) = false) (y : Bool) : op.combine x y = y := by
  cases op with
  | and | or => cases x <;> cases y <;> trivial
  | _ => cases hop

variable {op : BinaryOp} {a b v : Value} {m m' : Machine ω} {cause : EvalError}

/-- Once the left side has not decided, the operator gives what comes from the right, if that is a
bool. -/
theorem binary_logical_ok (hop : op.isLogical = true) :
    binary op a b m = .ok v m' ↔ (∃ y, b = .bool y) ∧ v = b ∧ m' = m := by
  cases op with
  | and | or =>
    cases b with
    | bool y => exact pure_ok.trans ⟨fun h => ⟨⟨y, rfl⟩, h⟩, And.right⟩
    | _ => exact ⟨fun h => (throw_ok.mp h).elim, fun h => h.1.elim nofun⟩
  | _ => cases hop

theorem binary_logical_error (hop : op.isLogical = true) (hb : ∀ y, b ≠ .bool y) :
    (binary op a b : Eval ω Value) m = .error (.typeError (.logicalOperand b)) m := by
  cases op with
  | and | or =>
    cases b with
    | bool y => exact absurd rfl (hb y)
    | _ => rfl
  | _ => cases hop

end Eval

namespace Expr

variable {e l r : Expr} {op : BinaryOp} {m m' m₁ : Machine ω} {v a y : Value}

/-! ## One operator -/

/-- The values of a logical operator: that on the left if it decides, and otherwise the bool on the
right, which is evaluated after it. -/
theorem logical_ok (hop : op.isLogical = true) :
    (binary op l r).eval m = .ok v m' ↔
      ∃ a m₁, l.eval m = .ok a m₁ ∧
        (Eval.decides op a = true ∧ v = a ∧ m' = m₁ ∨
          Eval.decides op a = false ∧ ∃ y, r.eval m₁ = .ok (.bool y) m' ∧ v = .bool y) := by
  constructor
  · intro h
    obtain ⟨a, m₁, hl, h⟩ := andThen_ok.mp h
    refine ⟨a, m₁, hl, ?_⟩
    rcases ite_run.mp h with ⟨hdecides, h⟩ | ⟨hdecides, h⟩
    · exact .inl ⟨hdecides, pure_ok.mp h⟩
    · obtain ⟨b, m₂, hr, h⟩ := andThen_ok.mp h
      obtain ⟨⟨y, rfl⟩, rfl, rfl⟩ := (Eval.binary_logical_ok hop).mp h
      exact .inr ⟨Bool.eq_false_iff.mpr hdecides, y, hr, rfl⟩
  · rintro ⟨a, m₁, hl, h⟩
    refine andThen_ok.mpr ⟨a, m₁, hl, ite_run.mpr ?_⟩
    rcases h with ⟨hdecides, hv⟩ | ⟨hdecides, y, hr, rfl⟩
    · exact .inl ⟨hdecides, pure_ok.mpr hv⟩
    · refine .inr ⟨Bool.eq_false_iff.mp hdecides, andThen_ok.mpr ⟨_, m', hr, ?_⟩⟩
      exact (Eval.binary_logical_ok hop).mpr ⟨⟨y, rfl⟩, rfl, rfl⟩

/-- A right operand that is evaluated to anything but a bool is an error. -/
theorem logical_refused (hop : op.isLogical = true) (hl : l.eval m = .ok a m₁)
    (hdecides : Eval.decides op a = false) (hr : r.eval m₁ = .ok y m') (hy : ∀ b, y ≠ .bool b) :
    (binary op l r).eval m = .error (.typeError (.logicalOperand y)) m' := by
  refine andThen_error.mpr (.inr ⟨a, m₁, hl, ite_run.mpr (.inr ?_)⟩)
  refine ⟨Bool.eq_false_iff.mp hdecides, andThen_error.mpr (.inr ⟨y, m', hr, ?_⟩)⟩
  exact Eval.binary_logical_error hop hy

/-! ## Operands that are bools -/

/-- The value of the expression, if it has one, is a bool. -/
def Judged (e : Expr) (m : Machine ω) : Prop :=
  ∀ v m', e.eval m = .ok v m' → ∃ x, v = .bool x

/-- The expression gives a bool by its form: it is a constant, a negation, a comparison or made by a
logical operator. -/
inductive IsCondition : Expr → Prop
  | const (x : Bool) : IsCondition (.const (.bool x))
  | not (operand : Expr) : IsCondition (.unary .not operand)
  | binary {op : BinaryOp} (condition : op.isArithmetic = false) (l r : Expr) :
      IsCondition (.binary op l r)

/-- Conditions give bools, whatever their operands are. -/
theorem IsCondition.judged (h : e.IsCondition) (m : Machine ω) : e.Judged m := by
  intro v m' hv
  cases h with
  | const x => exact ⟨x, (pure_ok.mp hv).1⟩
  | not operand =>
    obtain ⟨a, m₁, -, hv⟩ := andThen_ok.mp hv
    exact Eval.not_ok hv
  | binary condition =>
    obtain ⟨a, m₁, -, hv⟩ := andThen_ok.mp hv
    rcases ite_run.mp hv with ⟨hdecides, hv⟩ | ⟨-, hv⟩
    · obtain ⟨rfl, -⟩ := pure_ok.mp hv
      exact (Eval.decides_ok hdecides).2
    · obtain ⟨b, m₂, -, hv⟩ := andThen_ok.mp hv
      exact Eval.binary_ok condition hv

/-- So do well-typed expressions of type bool. -/
theorem WellTyped.judged {symbols : List Symbol} (h : e.WellTyped symbols) (hty : e.type = .bool)
    (hm : m.Conforms symbols) (hcalls : e.CallsConform m) : e.Judged m := fun v m' hv => by
  have hv := eval_conforms e h hm hcalls hv
  rw [hty] at hv
  exact hv

/-! ## Operators inside of an expression -/

/-- The law of a logical operator that the evaluation of an expression comes to. -/
structure Connects (e : Expr) (m₀ : Machine ω) (op : BinaryOp) (l r : Expr) (m : Machine ω) :
    Prop where
  /-- It gives a value just if the left operand gives a bool `x` that leaves nothing open, and the
  right one is not evaluated, or one that does, and then the right operand gives a bool. -/
  value : ∀ v m', (binary op l r).eval m = .ok v m' ↔
    ∃ x m₁, l.eval m = .ok (.bool x) m₁ ∧
      (op.combine x false = op.combine x true ∧ v = .bool (op.combine x true) ∧ m' = m₁ ∨
        op.combine x false ≠ op.combine x true ∧
          ∃ y, r.eval m₁ = .ok (.bool y) m' ∧ v = .bool (op.combine x y))
  /-- Anything but a bool from a right operand that is evaluated fails the whole expression. -/
  refused : ∀ x m₁ y m', l.eval m = .ok (.bool x) m₁ → op.combine x false ≠ op.combine x true →
    r.eval m₁ = .ok y m' → (∀ b, y ≠ .bool b) →
      e.eval m₀ = .error (.typeError (.logicalOperand y)) m'
  /-- The expression has no value unless the operator has one. -/
  needed : ∀ v₀ m₂, e.eval m₀ = .ok v₀ m₂ → ∃ v m', (binary op l r).eval m = .ok v m'

/-- An operator whose evaluation fails leaves the expression around it without a value. -/
theorem Starts.needed {e' : Expr} {m₀ m₂ : Machine ω} {v₀ : Value} (h : e.Starts m₀ e' m)
    (hv : e.eval m₀ = .ok v₀ m₂) : ∃ v m', e'.eval m = .ok v m' := by
  cases he' : e'.eval m with
  | ok v m' => exact ⟨v, m', rfl⟩
  | error cause m' => exact absurd (hv.symm.trans (h.fails he')) nofun

/-- A logical operator whose left operand gives a bool, if anything, is the conjunction or
disjunction of two bools and leaves its right operand alone when that makes no difference. -/
theorem Starts.logical_law {m₀ : Machine ω} (hop : op.isLogical = true)
    (h : e.Starts m₀ (.binary op l r) m) (hl : l.Judged m) : e.Connects m₀ op l r m where
  value v m' := by
    constructor
    · intro hv
      obtain ⟨a, m₁, ha, hrest⟩ := (logical_ok hop).mp hv
      obtain ⟨x, rfl⟩ := hl a m₁ ha
      refine ⟨x, m₁, ha, ?_⟩
      rcases hrest with ⟨hdecides, rfl, rfl⟩ | ⟨hdecides, y, hr, rfl⟩
      · refine .inl ⟨(Eval.decides_bool hop x).mp hdecides, ?_, rfl⟩
        rw [Eval.combine_of_decides hdecides]
      · have hopen := (not_congr (Eval.decides_bool hop x)).mp (Bool.eq_false_iff.mp hdecides)
        refine .inr ⟨hopen, y, hr, ?_⟩
        rw [Eval.combine_of_undecided hop hdecides]
    · rintro ⟨x, m₁, ha, hrest⟩
      refine (logical_ok hop).mpr ⟨_, m₁, ha, ?_⟩
      rcases hrest with ⟨hsettled, rfl, rfl⟩ | ⟨hopen, y, hr, rfl⟩
      · have hdecides := (Eval.decides_bool hop x).mpr hsettled
        rw [Eval.combine_of_decides hdecides]
        exact .inl ⟨hdecides, rfl, rfl⟩
      · have hdecides := Bool.eq_false_iff.mpr ((not_congr (Eval.decides_bool hop x)).mpr hopen)
        rw [Eval.combine_of_undecided hop hdecides]
        exact .inr ⟨hdecides, y, hr, rfl⟩
  refused x m₁ y m' ha hopen hr hy := by
    have hdecides := Bool.eq_false_iff.mpr ((not_congr (Eval.decides_bool hop x)).mpr hopen)
    exact h.fails (logical_refused hop ha hdecides hr hy)
  needed v₀ m₂ hv := h.needed hv

/-- The conjunction in `!(1 < 2 && "a" == "b")`: its left operand leaves the matter open, and the
right one settles it. -/
theorem negated_conjunction :
    ∃ (e l r : Expr) (m : Machine Unit),
      e = .unary .not (.binary .and l r) ∧
        l = .binary (.order .lt) (.const (.int 1)) (.const (.int 2)) ∧
          r = .binary .equal (.const (.str "a")) (.const (.str "b")) ∧
            l.eval m = .ok (.bool true) m ∧ r.eval m = .ok (.bool false) m ∧
              e.eval m = .ok (.bool true) m ∧ e.Starts m (.binary .and l r) m ∧
                e.Connects m .and l r m := by
  let m : Machine Unit := .new .empty () 9
  let l : Expr := .binary (.order .lt) (.const (.int 1)) (.const (.int 2))
  let r : Expr := .binary .equal (.const (.str "a")) (.const (.str "b"))
  have place : (unary .not (binary .and l r)).children = [] ++ binary .and l r :: [] := rfl
  have hstarts : (unary .not (binary .and l r)).Starts m (binary .and l r) m :=
    .operand place rfl rfl .here
  have hl : l.Judged m := (IsCondition.binary rfl _ _).judged m
  exact ⟨_, l, r, m, rfl, rfl, rfl, rfl, rfl, rfl, hstarts, hstarts.logical_law rfl hl⟩

/-- A number on the left of a conjunction is taken for a bool that leaves the matter open. -/
theorem number_passes_for_bool :
    ∃ m : Machine Unit,
      (Expr.const (.int 1)).eval m = .ok (.int 1) m ∧
        (Expr.binary .and (.const (.int 1)) (.const (.bool true))).eval m = .ok (.bool true) m :=
  ⟨.new .empty () 9, rfl, rfl⟩

end Expr

end StructuredFlow
