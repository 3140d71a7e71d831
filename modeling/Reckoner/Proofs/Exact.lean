/-
**Exact numbers.**

The definitions of the calculator are written for any type of numbers, and nothing is assumed of
its operations.  The theory of simplification is about numbers without rounding: every number is
a rational, the operations are those of the rationals, and a number is known by its text.  The
binary numbers of the running program are not exact in this sense; what the laws below isolate is
everything that the rules of simplification take for granted.

Main definitions:

* `Reckoner.Number.value` — the rational value of a number;
* `Reckoner.ExactNumber` — the laws of exact numbers;
* `Reckoner.valueIn` — the value of a number in a field of characteristic zero.

Main results:

* `Reckoner.valueIn_add`, … , `Reckoner.valueIn_pow` — values are computed in the field;
* `Reckoner.integer?_eq_some_iff` — the integer that a number is equal to is its value;
* `Reckoner.Expr.same_iff_eq` — trees that compare equal are the same tree.
-/

import Mathlib.Data.Rat.Cast.CharZero
import Mathlib.Tactic
import Reckoner.Expr.Written

set_option autoImplicit false

namespace Reckoner

open Arithmetic (ofInt isZero isOne isNegative integer? one)

/-- The rational value of a number that has one. -/
def Number.value {κ : Type} [Number κ] (c : κ) : ℚ := ((Number.reading c).value?).getD 0

/-- A run of digits and points, as the text of a number without its sign. -/
def IsDigitRun (ds : List Char) : Prop := ds ≠ [] ∧ ∀ d ∈ ds, d.isDigit = true ∨ d = '.'

/-- **The laws of exact numbers.**  Division and powers are only described where they are
defined. -/
class ExactNumber (κ : Type) [Number κ] : Prop where
  /-- Every number is finite and has its value as its exact content. -/
  reading_eq (c : κ) : Number.reading c = .finite (Number.value c)
  /-- There is one number for a value. -/
  value_injective : Function.Injective (Number.value (κ := κ))
  /-- Integers are exact. -/
  value_ofInt (n : ℤ) : Number.value (ofInt n : κ) = n
  /-- Decimal numbers are exact. -/
  value_ofDecimal (n : ℕ) (p : ℤ) : Number.value (Arithmetic.ofDecimal n p : κ) = n * 10 ^ p
  /-- Addition is exact. -/
  value_add (c d : κ) : Number.value (c + d) = Number.value c + Number.value d
  /-- Subtraction is exact. -/
  value_sub (c d : κ) : Number.value (c - d) = Number.value c - Number.value d
  /-- Multiplication is exact. -/
  value_mul (c d : κ) : Number.value (c * d) = Number.value c * Number.value d
  /-- The opposite is exact. -/
  value_neg (c : κ) : Number.value (-c) = -Number.value c
  /-- Division by a number other than zero is exact. -/
  value_div (c d : κ) : Number.value d ≠ 0 →
    Number.value (c / d) = Number.value c / Number.value d
  /-- Integer powers are exact, negative ones of numbers other than zero. -/
  value_pow (c d : κ) (n : ℤ) : Number.value d = n → Number.value c ≠ 0 ∨ 0 ≤ n →
    Number.value (Arithmetic.pow c d) = Number.value c ^ n
  /-- Numbers are compared by their values. -/
  same_iff (c d : κ) : Arithmetic.same c d = true ↔ Number.value c = Number.value d
  /-- Numbers are ordered by their values. -/
  less_iff (c d : κ) : Arithmetic.less c d = true ↔ Number.value c < Number.value d
  /-- Every number is finite. -/
  finite (c : κ) : Arithmetic.isFinite c = true
  /-- The nearest integer is that of the value. -/
  nearest_eq (c : κ) : Arithmetic.nearest c = nearestInteger (Number.value c)
  /-- A number is known by its text. -/
  text_injective : Function.Injective (Number.text (κ := κ))
  /-- The text of a number is a run of digits and points behind its sign. -/
  text_form (c : κ) : ∃ ds, IsDigitRun ds ∧
    (Number.text c).toList = if Number.value c < 0 then '-' :: ds else ds

/-! ### Integers among the rationals -/

/-- An integer is the integer nearest to it. -/
theorem nearestInteger_intCast (n : ℤ) : nearestInteger n = n := by
  have half (m : ℤ) : ((2 * (m : ℚ) + 1) / 2).floor = m := by
    have below : m ≤ ((2 * (m : ℚ) + 1) / 2).floor := Rat.le_floor_iff.2 (by linarith)
    have above : ((2 * (m : ℚ) + 1) / 2).floor < m + 1 :=
      Rat.floor_lt_iff.2 (by push_cast; linarith)
    omega
  unfold nearestInteger
  split
  · have := half (-n)
    push_cast at this
    rw [this]
    ring
  · exact half n

/-! ### Values in a field -/

section Field

variable {κ : Type} [Number κ] [ExactNumber κ]
variable {K : Type} [Field K]

/-- The value of a number in a field. -/
def valueIn {κ : Type} [Number κ] (K : Type) [Field K] (c : κ) : K := ((Number.value c : ℚ) : K)

variable [CharZero K]

omit [CharZero K] in
@[simp] theorem valueIn_ofInt (n : ℤ) : valueIn K (ofInt n : κ) = n := by
  simp [valueIn, ExactNumber.value_ofInt]

omit [CharZero K] in
@[simp] theorem valueIn_one : valueIn K (one : κ) = 1 := by simp [one]

@[simp] theorem valueIn_add (c d : κ) : valueIn K (c + d) = valueIn K c + valueIn K d := by
  simp [valueIn, ExactNumber.value_add]

@[simp] theorem valueIn_sub (c d : κ) : valueIn K (c - d) = valueIn K c - valueIn K d := by
  simp [valueIn, ExactNumber.value_sub]

@[simp] theorem valueIn_mul (c d : κ) : valueIn K (c * d) = valueIn K c * valueIn K d := by
  simp [valueIn, ExactNumber.value_mul]

omit [CharZero K] in
@[simp] theorem valueIn_neg (c : κ) : valueIn K (-c) = -valueIn K c := by
  simp [valueIn, ExactNumber.value_neg]

omit [ExactNumber κ] in
/-- A number has an integer value in the field when it has it among the rationals. -/
theorem valueIn_eq_intCast_iff {c : κ} {n : ℤ} : valueIn K c = n ↔ Number.value c = n := by
  rw [valueIn, ← Rat.cast_intCast, Rat.cast_inj]

omit [ExactNumber κ] in
theorem valueIn_eq_zero_iff {c : κ} : valueIn K c = 0 ↔ Number.value c = 0 := Rat.cast_eq_zero

theorem valueIn_div {c d : κ} (h : valueIn K d ≠ 0) :
    valueIn K (c / d) = valueIn K c / valueIn K d := by
  rw [valueIn, ExactNumber.value_div c d (mt valueIn_eq_zero_iff.2 h), Rat.cast_div]
  rfl

theorem valueIn_pow {c d : κ} {n : ℤ} (hd : valueIn K d = n) (h : valueIn K c ≠ 0 ∨ 0 ≤ n) :
    valueIn K (Arithmetic.pow c d) = valueIn K c ^ n := by
  rw [valueIn, ExactNumber.value_pow c d n (valueIn_eq_intCast_iff.1 hd)
    (h.imp_left (mt valueIn_eq_zero_iff.2)), Rat.cast_zpow]
  rfl

/-! ### Tests on numbers -/

theorem isZero_iff {c : κ} : isZero c = true ↔ valueIn K c = 0 := by
  rw [isZero, ExactNumber.same_iff, Arithmetic.zero, ExactNumber.value_ofInt,
    valueIn_eq_zero_iff, Int.cast_zero]

theorem isOne_iff {c : κ} : isOne c = true ↔ valueIn K c = 1 := by
  rw [isOne, ExactNumber.same_iff, one, ExactNumber.value_ofInt, ← valueIn_eq_intCast_iff (K := K),
    Int.cast_one]

end Field

section Tests

variable {κ : Type} [Number κ] [ExactNumber κ]

theorem isNegative_iff {c : κ} : isNegative c = true ↔ Number.value c < 0 := by
  rw [isNegative, ExactNumber.less_iff, Arithmetic.zero, ExactNumber.value_ofInt, Int.cast_zero]

/-- **The integer that a number is equal to is its value.** -/
theorem integer?_eq_some_iff {c : κ} {n : ℤ} : integer? c = some n ↔ Number.value c = n := by
  unfold integer?
  rw [ExactNumber.finite, Bool.true_and]
  constructor
  · intro h
    split at h
    · rename_i hs
      rw [ExactNumber.same_iff, ExactNumber.value_ofInt] at hs
      rw [← hs, Option.some.inj h]
    · simp at h
  · intro h
    have hn : Arithmetic.nearest c = n := by
      rw [ExactNumber.nearest_eq, h, nearestInteger_intCast]
    rw [hn, if_pos]
    rw [ExactNumber.same_iff, ExactNumber.value_ofInt, h]

theorem ofInt_add_ofInt (m n : ℤ) : (ofInt m + ofInt n : κ) = ofInt (m + n) := by
  refine ExactNumber.value_injective ?_
  rw [ExactNumber.value_add, ExactNumber.value_ofInt, ExactNumber.value_ofInt,
    ExactNumber.value_ofInt, Int.cast_add]

theorem ofInt_sub_ofInt (m n : ℤ) : (ofInt m - ofInt n : κ) = ofInt (m - n) := by
  refine ExactNumber.value_injective ?_
  rw [ExactNumber.value_sub, ExactNumber.value_ofInt, ExactNumber.value_ofInt,
    ExactNumber.value_ofInt, Int.cast_sub]

theorem ofInt_mul_ofInt (m n : ℤ) : (ofInt m * ofInt n : κ) = ofInt (m * n) := by
  refine ExactNumber.value_injective ?_
  rw [ExactNumber.value_mul, ExactNumber.value_ofInt, ExactNumber.value_ofInt,
    ExactNumber.value_ofInt, Int.cast_mul]

theorem same_iff_eq {c d : κ} : Arithmetic.same c d = true ↔ c = d := by
  rw [ExactNumber.same_iff]
  exact ExactNumber.value_injective.eq_iff

/-- **Trees that compare equal are the same tree.** -/
theorem Expr.same_iff_eq {a b : Expr κ} : a.same b = true ↔ a = b := by
  induction a generalizing b with
  | var x => cases b <;> simp [Expr.same]
  | const c => cases b <;> simp [Expr.same, Reckoner.same_iff_eq]
  | add a₁ a₂ ih₁ ih₂ => cases b <;> simp [Expr.same, ih₁, ih₂]
  | sub a₁ a₂ ih₁ ih₂ => cases b <;> simp [Expr.same, ih₁, ih₂]
  | mul a₁ a₂ ih₁ ih₂ => cases b <;> simp [Expr.same, ih₁, ih₂]
  | div a₁ a₂ ih₁ ih₂ => cases b <;> simp [Expr.same, ih₁, ih₂]
  | pow a₁ a₂ ih₁ ih₂ => cases b <;> simp [Expr.same, ih₁, ih₂]
  | apply f a ih => cases b <;> simp [Expr.same, ih]

/-- An integer is the only number of its value. -/
theorem Expr.const_eq_ofInt {c : κ} {n : ℤ} (h : Number.value c = n) :
    Expr.const c = Expr.ofInt n := by
  rw [Expr.ofInt, Expr.const.injEq]
  exact ExactNumber.value_injective (h.trans (ExactNumber.value_ofInt n).symm)

end Tests

end Reckoner
