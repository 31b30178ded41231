import Mathlib.Algebra.Order.Field.Rat
import Mathlib.Algebra.BigOperators.Group.List
/-!
# C `double` without rounding

Both distribution contracts keep every quantity in a C `double`. This
development studies what the contracts compute, not how rounding perturbs
it: a finite `double` is modelled as the exact rational it would be without
rounding, and every sum or split proved below is exact in that sense. What
the code can still produce is a non-finite value: `x / 0` is `±∞` or NaN
(IEEE 754 §7.3, §7.2), and those propagate through `+`, `-`, `*` and `/`
(§6.1-6.2). `isfinite` (C99 7.12.3.2) tells them apart, and every ordered
comparison with NaN is false (§5.11). So `Double` is the extended rationals with NaN.

Zero is unsigned. The code adds a nonzero `change` to a total, and in IEEE 754
such a sum that is zero is `+0`, so every divisor the code can meet that is zero
is `+0`, and `x / 0` below is `x / (+0)`.

Results:
* `fin_add`, `fin_mul`, `fin_div`, `fin_lt`, ...: on finite operands every
  operation is the rational one, and these are the simp set every later proof
  reduces to.
* `le_of_le_of_le`, `add_posInf`: the order facts the ledgers' invariants need once
  an accumulator has become `+∞`.
-/
namespace WasmContracts

/-- A C `double` evaluated without rounding. -/
inductive Double where
  | fin (q : ℚ)
  | posInf
  | negInf
  | nan
  deriving DecidableEq, Repr

namespace Double

/-- `±∞` by sign: `true` is `+∞`. -/
def inf (pos : Bool) : Double := if pos then posInf else negInf

/-- `-x` -/
def neg : Double → Double
  | fin a => fin (-a)
  | posInf => negInf
  | negInf => posInf
  | nan => nan

/-- `x + y`; `∞ + (-∞)` is NaN. -/
def add : Double → Double → Double
  | fin a, fin b => fin (a + b)
  | nan, _ => nan
  | _, nan => nan
  | posInf, negInf => nan
  | negInf, posInf => nan
  | posInf, _ => posInf
  | _, posInf => posInf
  | negInf, _ => negInf
  | _, negInf => negInf

/-- `x * y`; `0 * ∞` is NaN. -/
def mul : Double → Double → Double
  | fin a, fin b => fin (a * b)
  | nan, _ => nan
  | _, nan => nan
  | fin a, posInf => if a = 0 then nan else inf (0 < a)
  | posInf, fin a => if a = 0 then nan else inf (0 < a)
  | fin a, negInf => if a = 0 then nan else inf (a < 0)
  | negInf, fin a => if a = 0 then nan else inf (a < 0)
  | posInf, posInf => posInf
  | negInf, negInf => posInf
  | posInf, negInf => negInf
  | negInf, posInf => negInf

/-- `x / y`; `x / 0` is `±∞` for `x ≠ 0` and NaN for `x = 0`, `∞ / ∞` is NaN. -/
def div : Double → Double → Double
  | fin a, fin b => if b = 0 then (if a = 0 then nan else inf (0 < a)) else fin (a / b)
  | nan, _ => nan
  | _, nan => nan
  | fin _, _ => fin 0
  | posInf, fin b => inf (0 ≤ b)
  | negInf, fin b => inf (b < 0)
  | _, _ => nan

/-- `x < y`: false whenever NaN is involved. -/
def lt : Double → Double → Bool
  | fin a, fin b => decide (a < b)
  | negInf, fin _ => true
  | negInf, posInf => true
  | fin _, posInf => true
  | _, _ => false

/-- `x <= y`: false whenever NaN is involved. -/
def le : Double → Double → Bool
  | fin a, fin b => decide (a ≤ b)
  | negInf, negInf => true
  | negInf, fin _ => true
  | negInf, posInf => true
  | fin _, posInf => true
  | posInf, posInf => true
  | _, _ => false

/-- `x == y`: NaN equals nothing, not even itself. -/
def eq : Double → Double → Bool
  | fin a, fin b => decide (a = b)
  | posInf, posInf => true
  | negInf, negInf => true
  | _, _ => false

/-- The rational a finite value stands for (`0` for the others). -/
def toRat : Double → ℚ
  | fin q => q
  | _ => 0

/-- `isfinite(x)` -/
def isfinite : Double → Bool
  | fin _ => true
  | _ => false

instance : Zero Double := ⟨fin 0⟩
instance : Neg Double := ⟨neg⟩
instance : Add Double := ⟨add⟩
instance : Sub Double := ⟨fun x y => add x (neg y)⟩
instance : Mul Double := ⟨mul⟩
instance : Div Double := ⟨div⟩
instance : LT Double := ⟨fun x y => lt x y = true⟩
instance : LE Double := ⟨fun x y => le x y = true⟩

instance (x y : Double) : Decidable (x < y) := inferInstanceAs (Decidable (lt x y = true))
instance (x y : Double) : Decidable (x ≤ y) := inferInstanceAs (Decidable (le x y = true))

/-! ## Finite operands -/

@[simp] theorem zero_eq : (0 : Double) = fin 0 := rfl
@[simp] theorem fin_inj {a b : ℚ} : fin a = fin b ↔ a = b := ⟨fun h => by cases h; rfl, by rintro rfl; rfl⟩
@[simp] theorem fin_add (a b : ℚ) : fin a + fin b = fin (a + b) := rfl
@[simp] theorem fin_sub (a b : ℚ) : fin a - fin b = fin (a - b) := by
  show fin (a + -b) = _; rw [sub_eq_add_neg]
@[simp] theorem fin_mul (a b : ℚ) : fin a * fin b = fin (a * b) := rfl
@[simp] theorem fin_div {b : ℚ} (a : ℚ) (h : b ≠ 0) : fin a / fin b = fin (a / b) := by
  show (if b = 0 then _ else _) = _; rw [if_neg h]
@[simp] theorem fin_div_zero_pos {a : ℚ} (h : 0 < a) : fin a / fin 0 = posInf := by
  show div (fin a) (fin 0) = _; simp [div, h.ne', h, inf]
@[simp] theorem fin_div_zero_zero : fin 0 / fin 0 = nan := rfl
@[simp] theorem fin_lt (a b : ℚ) : fin a < fin b ↔ a < b := decide_eq_true_iff
@[simp] theorem fin_le (a b : ℚ) : fin a ≤ fin b ↔ a ≤ b := decide_eq_true_iff
@[simp] theorem eq_fin (a b : ℚ) : eq (fin a) (fin b) = decide (a = b) := rfl
@[simp] theorem toRat_fin (a : ℚ) : (fin a).toRat = a := rfl
@[simp] theorem isfinite_fin (a : ℚ) : isfinite (fin a) = true := rfl
@[simp] theorem isfinite_posInf : isfinite posInf = false := rfl
@[simp] theorem isfinite_nan : isfinite nan = false := rfl

theorem eq_fin_of_add_fin {x : Double} {a b : ℚ} (h : x + fin a = fin b) : x = fin (b - a) := by
  cases x with
  | fin q => rw [fin_add, fin_inj] at h; rw [fin_inj, ← h, add_sub_cancel_right]
  | _ => cases h

/-- A sum of finite values is the finite rational sum. -/
theorem sum_map_fin {ι : Type} (f : ι → ℚ) (l : List ι) :
    (l.map (fun i => fin (f i))).sum = fin (l.map f).sum := by
  induction l with
  | nil => rfl
  | cons i l ih => simp [ih]

/-! ## `+∞` and NaN -/

@[simp] theorem add_posInf (x : Double) (h : x ≠ nan) (h' : x ≠ negInf) : x + posInf = posInf := by
  cases x <;> first | rfl | contradiction
@[simp] theorem posInf_add_fin (a : ℚ) : posInf + fin a = posInf := rfl
@[simp] theorem posInf_sub_posInf : posInf - posInf = nan := rfl
@[simp] theorem posInf_sub_fin (a : ℚ) : posInf - fin a = posInf := rfl
@[simp] theorem fin_mul_posInf {a : ℚ} (h : 0 < a) : fin a * posInf = posInf := by
  show (if a = 0 then nan else inf (0 < a)) = _; simp [h.ne', h, inf]
@[simp] theorem posInf_mul_fin {a : ℚ} (h : 0 < a) : posInf * fin a = posInf := by
  show (if a = 0 then nan else inf (0 < a)) = _; simp [h.ne', h, inf]
@[simp] theorem posInf_mul_posInf : posInf * posInf = posInf := rfl
@[simp] theorem nan_add (x : Double) : nan + x = nan := by cases x <;> rfl
@[simp] theorem nan_mul (x : Double) : nan * x = nan := by cases x <;> rfl
@[simp] theorem nan_div (x : Double) : nan / x = nan := by cases x <;> rfl
@[simp] theorem not_le_nan (x : Double) : ¬ x ≤ nan := by cases x <;> exact Bool.false_ne_true
@[simp] theorem not_nan_le (x : Double) : ¬ nan ≤ x := by cases x <;> exact Bool.false_ne_true
@[simp] theorem le_posInf (x : Double) (h : x ≠ nan) : x ≤ posInf := by
  cases x <;> first | rfl | contradiction
@[simp] theorem posInf_le_fin (a : ℚ) : ¬ posInf ≤ fin a := Bool.false_ne_true

theorem le_of_le_of_le {x y z : Double} (h₁ : x ≤ y) (h₂ : y ≤ z) : x ≤ z := by
  cases x <;> cases y <;> cases z <;> try first | rfl | exact absurd h₁ Bool.false_ne_true | exact absurd h₂ Bool.false_ne_true
  simp only [fin_le] at *; exact h₁.trans h₂

end Double

end WasmContracts
