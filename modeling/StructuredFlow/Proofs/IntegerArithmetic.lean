import Mathlib.Algebra.Ring.Int.Defs
import Mathlib.Algebra.Ring.Nat
import StructuredFlow.Proofs.ShortCircuit

/-
  Arithmetic of integers. An operator on two integers of one width gives what it gives on integers
  without bounds, brought into the range of the width; only a division by zero has no result, and
  raises an exception (`Expr.integer_law`). What is behind this is that the integers of a width are
  words (`Words`): they are told apart by the integers that they stand for, and their operators are
  those of the integers, wrapped around. Nothing is lost if two `int`s are taken for `long`s and the
  result is cut down to an `int` again (`Eval.arith_widened`).
-/

namespace StructuredFlow

open Outcome

/-- The widths that integers have. -/
inductive Width where
  | int
  | long
deriving DecidableEq

namespace Width

def bits : Width → Nat
  | int => 32
  | long => 64

/-- The one integer in the range of the width that differs by a multiple of `2 ^ bits`; the range
begins at `-2 ^ (bits - 1)`. -/
def wrap (w : Width) (x : Int) : Int :=
  x.bmod (2 ^ w.bits)

/-- The least integer of the width. -/
def minimum (w : Width) : Int :=
  -2 ^ (w.bits - 1)

/-- In wrapped arithmetic too, a number is put together again from its quotient and remainder. -/
theorem wrap_quotient (w : Width) (x y : Int) :
    w.wrap (w.wrap (w.wrap (x.tdiv y) * y) + w.wrap (x.tmod y)) = w.wrap x := by
  unfold wrap
  rw [Int.bmod_add_bmod, Int.add_bmod_bmod, ← Int.bmod_add_bmod, Int.bmod_mul_bmod,
    Int.bmod_add_bmod, Int.tdiv_mul_add_tmod]

/-- The quotient of the least integer by `-1` is just out of range, and wraps around. -/
theorem wrap_minimum_tdiv (w : Width) : w.wrap (w.minimum.tdiv (-1)) = w.minimum := by
  cases w <;> decide

theorem wrap_minimum_tmod (w : Width) : w.wrap (w.minimum.tmod (-1)) = 0 := by
  cases w <;> decide

end Width

/-- The width of an integer value, and the integer that it stands for. -/
def Value.integer? : Value → Option (Width × Int)
  | .int i => some (.int, i.toInt)
  | .long i => some (.long, i.toInt)
  | _ => none

namespace Arith

/-- The operator on integers without bounds. Quotients are cut off towards zero, and remainders have
the sign of the left operand. -/
def exact : Arith → Int → Int → Int
  | add, x, y => x + y
  | sub, x, y => x - y
  | mul, x, y => x * y
  | div, x, y => x.tdiv y
  | mod, x, y => x.tmod y

/-- The operator has no result on a right operand that is zero. -/
def divides : Arith → Bool
  | div | mod => true
  | add | sub | mul => false

end Arith

/-- The relation that a comparison tests, on integers. -/
def Order.Relates : Order → Int → Int → Prop
  | lt, x, y => x < y
  | le, x, y => x ≤ y
  | gt, x, y => y < x
  | ge, x, y => y ≤ x

/-! ## Words -/

/-- A type of words of so many bits: each stands for an integer, and the operators and the order are
those of the integers, where results are wrapped around. -/
structure Words (α : Type) [Add α] [Sub α] [Mul α] [Div α] [Mod α] [Neg α] [OfNat α 0] [LT α]
    (bits : Nat) (toInt : α → Int) : Prop where
  add : ∀ a b, toInt (a + b) = (toInt a + toInt b).bmod (2 ^ bits)
  sub : ∀ a b, toInt (a - b) = (toInt a - toInt b).bmod (2 ^ bits)
  mul : ∀ a b, toInt (a * b) = (toInt a * toInt b).bmod (2 ^ bits)
  div : ∀ a b, toInt (a / b) = ((toInt a).tdiv (toInt b)).bmod (2 ^ bits)
  mod : ∀ a b, toInt (a % b) = (toInt a).tmod (toInt b)
  neg : ∀ a, toInt (-a) = (-toInt a).bmod (2 ^ bits)
  zero : toInt 0 = 0
  lt : ∀ a b, a < b ↔ toInt a < toInt b
  within : ∀ a, (toInt a).bmod (2 ^ bits) = toInt a
  inj : ∀ a b, toInt a = toInt b → a = b

theorem Width.int_words : Words Int32 32 Int32.toInt where
  add := Int32.toInt_add
  sub := Int32.toInt_sub
  mul := Int32.toInt_mul
  div := Int32.toInt_div
  mod := Int32.toInt_mod
  neg := Int32.toInt_neg
  zero := Int32.toInt_zero
  lt _ _ := Int32.lt_iff_toInt_lt
  within := Int32.toInt_bmod
  inj _ _ := Int32.toInt_inj.mp

theorem Width.long_words : Words Int64 64 Int64.toInt where
  add := Int64.toInt_add
  sub := Int64.toInt_sub
  mul := Int64.toInt_mul
  div := Int64.toInt_div
  mod := Int64.toInt_mod
  neg := Int64.toInt_neg
  zero := Int64.toInt_zero
  lt _ _ := Int64.lt_iff_toInt_lt
  within := Int64.toInt_bmod
  inj _ _ := Int64.toInt_inj.mp

namespace Words

variable {α : Type} [Add α] [Sub α] [Mul α] [Div α] [Mod α] [Neg α] [OfNat α 0] [LT α]
  {bits : Nat} {toInt : α → Int}

theorem eq_iff (h : Words α bits toInt) {a b : α} : a = b ↔ toInt a = toInt b :=
  ⟨congrArg toInt, h.inj a b⟩

/-- Unless it divides by zero, an operator gives the exact result, wrapped around. -/
theorem compute?_eq_some [DecidableEq α] (h : Words α bits toInt) {op : Arith} {a b : α}
    (hb : op.divides = true → toInt b ≠ 0) :
    ∃ c, op.compute? a b = some c ∧ toInt c = (op.exact (toInt a) (toInt b)).bmod (2 ^ bits) := by
  have hne : op.divides = true → b ≠ 0 := fun hop hzero => hb hop (hzero ▸ h.zero)
  cases op with
  | add => exact ⟨a + b, rfl, h.add a b⟩
  | sub => exact ⟨a - b, rfl, h.sub a b⟩
  | mul => exact ⟨a * b, rfl, h.mul a b⟩
  | div => exact ⟨a / b, if_neg (hne rfl), h.div a b⟩
  | mod =>
    refine ⟨a % b, if_neg (hne rfl), ?_⟩
    -- A remainder is in the range as it is.
    rw [Arith.exact, ← h.mod, h.within]

theorem compute?_eq_none [DecidableEq α] (h : Words α bits toInt) {op : Arith} {a b : α}
    (hop : op.divides = true) (hb : toInt b = 0) : op.compute? a b = none := by
  obtain rfl : b = 0 := h.inj b 0 (hb.trans h.zero.symm)
  cases op with
  | div | mod => exact if_pos rfl
  | _ => cases hop

theorem holds_iff [DecidableLT α] (h : Words α bits toInt) {op : Order} {a b : α} :
    op.holds a b = true ↔ op.Relates (toInt a) (toInt b) := by
  cases op with
  | lt => exact decide_eq_true_iff.trans (h.lt a b)
  | gt => exact decide_eq_true_iff.trans (h.lt b a)
  | le => simp [Order.holds, Order.Relates, h.lt]
  | ge => simp [Order.holds, Order.Relates, h.lt]

end Words

/-! ## Operators on values -/

namespace Value

variable {a b : Value} {w : Width} {x y : Int}

theorem integer?_eq_int : a.integer? = some (.int, x) ↔ ∃ i, a = .int i ∧ i.toInt = x := by
  cases a <;> simp [integer?]

theorem integer?_eq_long : a.integer? = some (.long, x) ↔ ∃ i, a = .long i ∧ i.toInt = x := by
  cases a <;> simp [integer?]

/-- Two integers of one width are two `int`s or two `long`s. -/
theorem integers_cases (ha : a.integer? = some (w, x)) (hb : b.integer? = some (w, y)) :
    (∃ i j, w = .int ∧ a = .int i ∧ b = .int j ∧ x = i.toInt ∧ y = j.toInt) ∨
      ∃ i j, w = .long ∧ a = .long i ∧ b = .long j ∧ x = i.toInt ∧ y = j.toInt := by
  cases w with
  | int =>
    obtain ⟨i, rfl, rfl⟩ := integer?_eq_int.mp ha
    obtain ⟨j, rfl, rfl⟩ := integer?_eq_int.mp hb
    exact .inl ⟨i, j, rfl, rfl, rfl, rfl, rfl⟩
  | long =>
    obtain ⟨i, rfl, rfl⟩ := integer?_eq_long.mp ha
    obtain ⟨j, rfl, rfl⟩ := integer?_eq_long.mp hb
    exact .inr ⟨i, j, rfl, rfl, rfl, rfl, rfl⟩

/-- An integer value is known by its width and by what it stands for. -/
theorem eq_of_integer? (ha : a.integer? = some (w, x)) (hb : b.integer? = some (w, x)) : a = b := by
  rcases integers_cases ha hb with ⟨i, j, rfl, rfl, rfl, hi, hj⟩ | ⟨i, j, rfl, rfl, rfl, hi, hj⟩
  · rw [Width.int_words.inj i j (hi.symm.trans hj)]
  · rw [Width.long_words.inj i j (hi.symm.trans hj)]

/-- What an integer value stands for is in the range of its width. -/
theorem wrap_of_integer? (ha : a.integer? = some (w, x)) : w.wrap x = x := by
  rcases integers_cases ha ha with ⟨i, -, rfl, -, -, rfl, -⟩ | ⟨i, -, rfl, -, -, rfl, -⟩
  · exact Width.int_words.within i
  · exact Width.long_words.within i

end Value

namespace Eval

variable {ω : Type} {a b : Value} {w w' : Width} {x y : Int} {m : Machine ω}

theorem neg_integer (ha : a.integer? = some (w, x)) :
    ∃ v, (unary .neg a : Eval ω Value) m = .ok v m ∧ v.integer? = some (w, w.wrap (-x)) := by
  rcases Value.integers_cases ha ha with ⟨i, -, rfl, rfl, -, rfl, -⟩ | ⟨i, -, rfl, rfl, -, rfl, -⟩
  · exact ⟨.int (-i), rfl, congrArg (fun x => some (Width.int, x)) (Width.int_words.neg i)⟩
  · exact ⟨.long (-i), rfl, congrArg (fun x => some (Width.long, x)) (Width.long_words.neg i)⟩

section

variable (ha : a.integer? = some (w, x)) (hb : b.integer? = some (w, y))
include ha hb

/-- Unless it divides by zero, an operator gives an integer of the width of its operands. -/
theorem arith_integers {op : Arith} (hy : op.divides = true → y ≠ 0) :
    ∃ v, (arith op a b : Eval ω Value) m = .ok v m ∧
      v.integer? = some (w, w.wrap (op.exact x y)) := by
  rcases Value.integers_cases ha hb with ⟨i, j, rfl, rfl, rfl, rfl, rfl⟩ |
    ⟨i, j, rfl, rfl, rfl, rfl, rfl⟩
  · obtain ⟨k, hk, hvalue⟩ := Width.int_words.compute?_eq_some (a := i) hy
    refine ⟨.int k, ?_, congrArg (fun x => some (Width.int, x)) hvalue⟩
    rw [arith, hk]
    rfl
  · obtain ⟨k, hk, hvalue⟩ := Width.long_words.compute?_eq_some (a := i) hy
    refine ⟨.long k, ?_, congrArg (fun x => some (Width.long, x)) hvalue⟩
    rw [arith, hk]
    rfl

theorem arith_byZero {op : Arith} (hop : op.divides = true) (hy : y = 0) :
    (arith op a b : Eval ω Value) m = divisionByZero m := by
  rcases Value.integers_cases ha hb with ⟨i, j, rfl, rfl, rfl, rfl, rfl⟩ |
    ⟨i, j, rfl, rfl, rfl, rfl, rfl⟩
  · rw [arith, Width.int_words.compute?_eq_none hop hy]
  · rw [arith, Width.long_words.compute?_eq_none hop hy]

theorem order_integers (op : Order) :
    ∃ holds, (order op a b : Eval ω Value) m = .ok (.bool holds) m ∧
      (holds = true ↔ op.Relates x y) := by
  rcases Value.integers_cases ha hb with ⟨i, j, rfl, rfl, rfl, rfl, rfl⟩ |
    ⟨i, j, rfl, rfl, rfl, rfl, rfl⟩
  · exact ⟨_, rfl, Width.int_words.holds_iff⟩
  · exact ⟨_, rfl, Width.long_words.holds_iff⟩

theorem same_integers : (a == b) = true ↔ x = y := by
  rcases Value.integers_cases ha hb with ⟨i, j, rfl, rfl, rfl, rfl, rfl⟩ |
    ⟨i, j, rfl, rfl, rfl, rfl, rfl⟩
  · exact (beq_iff_eq (a := i)).trans Width.int_words.eq_iff
  · exact (beq_iff_eq (a := i)).trans Width.long_words.eq_iff

end

/-- Operators take no operands of different widths. -/
theorem binary_mixed {op : BinaryOp} (ha : a.integer? = some (w, x))
    (hb : b.integer? = some (w', y)) (hw : w ≠ w')
    (hop : op.isArithmetic = true ∨ ∃ o, op = .order o) :
    (binary op a b : Eval ω Value) m = .error (.typeError (.operands op a b)) m := by
  have hmixed : (∃ i j, a = .int i ∧ b = .long j) ∨ ∃ i j, a = .long i ∧ b = .int j := by
    cases a with
    | int i =>
      cases b with
      | long j => exact .inl ⟨i, j, rfl, rfl⟩
      | int j => cases ha; cases hb; exact absurd rfl hw
      | _ => cases hb
    | long i =>
      cases b with
      | int j => exact .inr ⟨i, j, rfl, rfl⟩
      | long j => cases ha; cases hb; exact absurd rfl hw
      | _ => cases hb
    | _ => cases ha
  cases op with
  | arith op | order op => rcases hmixed with ⟨i, j, rfl, rfl⟩ | ⟨i, j, rfl, rfl⟩ <;> rfl
  | _ => rcases hop with hop | ⟨o, hop⟩ <;> cases hop

/-- The operator on two `int`s is that on `long`s, with the result cut down. -/
theorem arith_widened (op : Arith) (i j : Int32) :
    (arith op (.long i.toInt64) (.long j.toInt64) >>= (convert · .int) : Eval ω Value) m =
      arith op (.int i) (.int j) m := by
  have hi : (Value.int i).integer? = some (.int, i.toInt) := rfl
  have hj : (Value.int j).integer? = some (.int, j.toInt) := rfl
  have hi' : (Value.long i.toInt64).integer? = some (.long, i.toInt) :=
    congrArg (fun x => some (Width.long, x)) i.toInt_toInt64
  have hj' : (Value.long j.toInt64).integer? = some (.long, j.toInt) :=
    congrArg (fun x => some (Width.long, x)) j.toInt_toInt64
  by_cases hzero : op.divides = true ∧ j.toInt = 0
  · rw [arith_byZero hi hj hzero.1 hzero.2]
    exact andThen_error.mpr (.inl (arith_byZero hi' hj' hzero.1 hzero.2))
  · have hy : op.divides = true → j.toInt ≠ 0 := fun hop h => hzero ⟨hop, h⟩
    obtain ⟨v, hv, hvalue⟩ := arith_integers (m := m) hi hj hy
    obtain ⟨v', hv', hvalue'⟩ := arith_integers (m := m) hi' hj' hy
    obtain ⟨k, rfl, hk⟩ := Value.integer?_eq_long.mp hvalue'
    rw [hv]
    refine andThen_ok.mpr ⟨.long k, m, hv', ?_⟩
    -- Wrapping around at the larger power of two makes no difference to the smaller one.
    have hcut : (Value.int k.toInt32).integer? =
        some (.int, Width.int.wrap (op.exact i.toInt j.toInt)) := by
      have hdvd : 2 ^ Width.int.bits ∣ 2 ^ Width.long.bits := by decide
      show some (Width.int, k.toInt32.toInt) = _
      rw [Int64.toInt_toInt32, hk]
      exact congrArg (fun x => some (Width.int, x)) (Int.bmod_bmod_of_dvd hdvd)
    rw [Value.eq_of_integer? hvalue hcut]
    rfl

end Eval

/-! ## Expressions -/

namespace Expr

variable {ω : Type} {l r : Expr} {m m₁ m₂ : Machine ω} {a b : Value} {w w' : Width} {x y : Int}

/-- An operator that is not logical is applied to the values of its operands, from left to right. -/
theorem binary_eval {op : BinaryOp} (hop : op.isLogical = false) (hl : l.eval m = .ok a m₁)
    (hr : r.eval m₁ = .ok b m₂) : (binary op l r).eval m = Eval.binary op a b m₂ := by
  have hdecides : Eval.decides op a = false := by
    cases op with
    | and | or => cases hop
    | _ => rfl
  rw [eval, andThen_of_ok hl, hdecides, if_neg Bool.false_ne_true, andThen_of_ok hr]

/-- The quotient times the right operand, with the remainder added. -/
def recomposed (l r : Expr) : Expr :=
  binary (.arith .add) (binary (.arith .mul) (binary (.arith .div) l r) r)
    (binary (.arith .mod) l r)

/-- The law of two operands, evaluated from the machine `m` to the machine `m'`, that give the
integers `x` and `y` of one width. -/
structure Computes (l r : Expr) (m : Machine ω) (w : Width) (x y : Int) (m' : Machine ω) :
    Prop where
  /-- An arithmetic operator gives the exact result, wrapped around, unless it divides by zero. -/
  exact : ∀ op : Arith, (op.divides = true → y ≠ 0) →
    ∃ v, (binary (.arith op) l r).eval m = .ok v m' ∧ v.integer? = some (w, w.wrap (op.exact x y))
  /-- By zero, it raises a new object of the class for that, and nothing else happens. -/
  byZero : ∀ op : Arith, op.divides = true → y = 0 →
    (binary (.arith op) l r).eval m =
      .error (.thrown (.object m'.heap.objectCount "ArithmeticError" []))
        { m' with heap := { m'.heap with objectCount := m'.heap.objectCount + 1 } }
  /-- The one quotient that is out of range comes back to the dividend. -/
  extreme : x = w.minimum → y = -1 →
    (∃ v, (binary (.arith .div) l r).eval m = .ok v m' ∧ v.integer? = some (w, w.minimum)) ∧
      ∃ v, (binary (.arith .mod) l r).eval m = .ok v m' ∧ v.integer? = some (w, 0)
  /-- Operands that can be evaluated again are put together again. -/
  recomposed : y ≠ 0 → ∀ e f u v, e.eval m' = .ok u m' → f.eval m' = .ok v m' →
    u.integer? = some (w, x) → v.integer? = some (w, y) → (recomposed e f).eval m' = .ok u m'
  /-- Comparisons agree with the order of the integers. -/
  ordered : ∀ op : Order, ∃ holds, (binary (.order op) l r).eval m = .ok (.bool holds) m' ∧
    (holds = true ↔ op.Relates x y)
  equal : (binary .equal l r).eval m = .ok (.bool (x == y)) m'
  notEqual : (binary .notEqual l r).eval m = .ok (.bool (x != y)) m'
  /-- An integer that any operator gives is of the width of the operands, and in its range. -/
  sameWidth : ∀ op v m'', (binary op l r).eval m = .ok v m'' →
    ∀ w' z, v.integer? = some (w', z) → w' = w ∧ w.wrap z = z
  /-- The operator on two `int`s is that on the operands as `long`s, with the result cut down. -/
  widened : w = .int → ∀ op : Arith,
    (convert (binary (.arith op) (convert l .long) (convert r .long)) .int).eval m =
      (binary (.arith op) l r).eval m

theorem exact_eval (hl : l.eval m = .ok a m₁) (hr : r.eval m₁ = .ok b m₂)
    (ha : a.integer? = some (w, x)) (hb : b.integer? = some (w, y)) (op : Arith)
    (hy : op.divides = true → y ≠ 0) :
    ∃ v, (binary (.arith op) l r).eval m = .ok v m₂ ∧
      v.integer? = some (w, w.wrap (op.exact x y)) := by
  rw [binary_eval rfl hl hr]
  exact Eval.arith_integers ha hb hy

theorem recomposed_eval (hl : l.eval m = .ok a m) (hr : r.eval m = .ok b m)
    (ha : a.integer? = some (w, x)) (hb : b.integer? = some (w, y)) (hy : y ≠ 0) :
    (recomposed l r).eval m = .ok a m := by
  obtain ⟨q, hq, hquotient⟩ := exact_eval hl hr ha hb .div fun _ => hy
  obtain ⟨p, hp, hproduct⟩ := exact_eval hq hr hquotient hb .mul nofun
  obtain ⟨k, hk, hremainder⟩ := exact_eval hl hr ha hb .mod fun _ => hy
  obtain ⟨s, hs, hsum⟩ := exact_eval hp hk hproduct hremainder .add nofun
  have hsame : w.wrap (w.wrap (w.wrap (x.tdiv y) * y) + w.wrap (x.tmod y)) = x :=
    (w.wrap_quotient x y).trans (Value.wrap_of_integer? ha)
  rw [Value.eq_of_integer? ha (hsum.trans (congrArg (fun x => some (w, x)) hsame))]
  exact hs

theorem widened_eval (hl : l.eval m = .ok a m₁) (hr : r.eval m₁ = .ok b m₂)
    (ha : a.integer? = some (.int, x)) (hb : b.integer? = some (.int, y)) (op : Arith) :
    (convert (binary (.arith op) (convert l .long) (convert r .long)) .int).eval m =
      (binary (.arith op) l r).eval m := by
  obtain ⟨i, rfl, -⟩ := Value.integer?_eq_int.mp ha
  obtain ⟨j, rfl, -⟩ := Value.integer?_eq_int.mp hb
  have hl' : (convert l .long).eval m = .ok (.long i.toInt64) m₁ := by
    rw [eval, andThen_of_ok hl]
    rfl
  have hr' : (convert r .long).eval m₁ = .ok (.long j.toInt64) m₂ := by
    rw [eval, andThen_of_ok hr]
    rfl
  have hlong : (binary (.arith op) (convert l .long) (convert r .long)).eval m =
      Eval.binary (.arith op) (.long i.toInt64) (.long j.toInt64) m₂ := binary_eval rfl hl' hr'
  rw [binary_eval rfl hl hr, eval]
  exact (andThen_of_eq hlong).trans (Eval.arith_widened op i j)

/-- A value that an operator gives for two integers is a bool, or an integer of their width. -/
theorem value_width (hl : l.eval m = .ok a m₁) (hr : r.eval m₁ = .ok b m₂)
    (ha : a.integer? = some (w, x)) (hb : b.integer? = some (w, y)) {op : BinaryOp} {v : Value}
    {m' : Machine ω} (hv : (binary op l r).eval m = .ok v m') {z : Int}
    (hz : v.integer? = some (w', z)) : w' = w := by
  cases hop : op.isArithmetic with
  | false =>
    obtain ⟨c, rfl⟩ := (IsCondition.binary hop l r).judged m v m' hv
    cases hz
  | true =>
    cases op with
    | arith op =>
      by_cases hzero : op.divides = true ∧ y = 0
      · rw [binary_eval rfl hl hr] at hv
        exact absurd ((Eval.arith_byZero ha hb hzero.1 hzero.2).symm.trans hv) nofun
      · obtain ⟨u, hu, hvalue⟩ := exact_eval hl hr ha hb op fun hop h => hzero ⟨hop, h⟩
        cases hu.symm.trans hv
        cases hvalue.symm.trans hz
        rfl
    | _ => cases hop

/-- Arithmetic of integers, for any two operands that give integers: with one width they follow the
law, and with two widths no operator of arithmetic or order takes them. -/
theorem integer_law (hl : l.eval m = .ok a m₁) (hr : r.eval m₁ = .ok b m₂)
    (ha : a.integer? = some (w, x)) (hb : b.integer? = some (w', y)) :
    (∃ v, (unary .neg l).eval m = .ok v m₁ ∧ v.integer? = some (w, w.wrap (-x))) ∧
      (w = w' → l.Computes r m w x y m₂) ∧
        (w ≠ w' → ∀ op : BinaryOp, op.isArithmetic = true ∨ (∃ o, op = .order o) →
          (binary op l r).eval m = .error (.typeError (.operands op a b)) m₂) := by
  refine ⟨?_, ?_, fun hw op hop => ?_⟩
  · rw [eval, andThen_of_ok hl]
    exact Eval.neg_integer ha
  · rintro rfl
    have hexact := exact_eval hl hr ha hb
    have hsame : (a == b) = (x == y) :=
      Bool.eq_iff_iff.mpr ((Eval.same_integers ha hb).trans beq_iff_eq.symm)
    constructor
    case exact => exact hexact
    case byZero =>
      intro op hop hy
      rw [binary_eval rfl hl hr]
      exact Eval.arith_byZero ha hb hop hy
    case extreme =>
      rintro rfl rfl
      exact ⟨w.wrap_minimum_tdiv ▸ hexact .div fun _ => by decide,
        w.wrap_minimum_tmod ▸ hexact .mod fun _ => by decide⟩
    case recomposed => exact fun hy e f u v he hf hu hv => recomposed_eval he hf hu hv hy
    case ordered =>
      intro op
      rw [binary_eval rfl hl hr]
      exact Eval.order_integers ha hb op
    case equal =>
      rw [binary_eval rfl hl hr, ← hsame]
      rfl
    case notEqual =>
      rw [binary_eval rfl hl hr, bne, ← hsame]
      rfl
    case sameWidth =>
      intro op v m' hv w' z hz
      obtain rfl := value_width hl hr ha hb hv hz
      exact ⟨rfl, Value.wrap_of_integer? hz⟩
    case widened =>
      rintro rfl op
      exact widened_eval hl hr ha hb op
  · have hlogical : op.isLogical = false := by
      rcases hop with hop | ⟨o, rfl⟩
      · cases op with
        | arith => rfl
        | _ => cases hop
      · rfl
    rw [binary_eval hlogical hl hr]
    exact Eval.binary_mixed ha hb hw hop

/-- The least `int` divided by `-1`, which is the least `int` again. -/
theorem integer_law_at_minimum :
    let l : Expr := .const (.int (-2147483648))
    let r : Expr := .const (.int (-1))
    let m : Machine Unit := .new .empty () 9
    l.eval m = .ok (.int (-2147483648)) m ∧ r.eval m = .ok (.int (-1)) m ∧
      l.Computes r m .int (-2147483648) (-1) m ∧
        (binary (.arith .div) l r).eval m = .ok (.int (-2147483648)) m ∧
          (binary (.arith .mod) l r).eval m = .ok (.int 0) m := by
  intro l r m
  have hl : (Value.int (-2147483648)).integer? = some (.int, -2147483648) := rfl
  have hr : (Value.int (-1)).integer? = some (.int, -1) := rfl
  exact ⟨rfl, rfl, (integer_law (l := l) (r := r) (m := m) rfl rfl hl hr).2.1 rfl, rfl, rfl⟩

end Expr

end StructuredFlow
