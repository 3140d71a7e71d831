/-
**The real numbers with signed infinities and zeros.**

The arithmetic of the running program is inexact only by rounding.  Without it, its numbers are the
real numbers with two infinities, a zero of each sign and an undefined result: a number is a sign
and a magnitude, and the magnitude may be infinite.  The operations are exact on real numbers.  On
infinities and zeros they are those of IEEE arithmetic: an operation has no result where it has no
limit, a quotient by zero is infinite, a power with the exponent zero is one, and so is a power of
one, whatever the other operand is.  The elementary functions have their limits at the infinities.

Main definitions:

* `Reckoner.Extended` — a sign and a magnitude, or nothing;
* the instance `Reckoner.Number Reckoner.Extended`;
* `Reckoner.Extended.Denotes` — a finite number has a real value.

Main results:

* `Reckoner.Extended.Denotes.add`, … , `Reckoner.Extended.Denotes.sqrt` — **the operations are exact
  on real numbers**;
* `Reckoner.Extended.Denotes.less_eq` — so is the order.
-/

import Mathlib.Analysis.SpecialFunctions.Log.Base
import Mathlib.Analysis.SpecialFunctions.Pow.NNReal
import Mathlib.Analysis.SpecialFunctions.Trigonometric.Arctan
import Mathlib.Tactic
import Reckoner.Number.Arithmetic
import Reckoner.Proofs.PrintedReals
import Reckoner.Proofs.Ratio

set_option autoImplicit false

namespace Reckoner

open scoped ENNReal NNReal

/-! ### Numbers -/

/-- A number: a sign and a magnitude, or nothing. -/
inductive Extended
  | undefined
  | signed (negative : Bool) (magnitude : ℝ≥0∞)

namespace Extended

open Classical in
/-- The number nearest to a real number, which is that number. -/
noncomputable def ofReal (x : ℝ) : Extended := signed (x < 0) (ENNReal.ofReal |x|)

/-- The real value of a finite number. -/
noncomputable def value : Extended → ℝ
  | undefined => 0
  | signed s m => if s then -m.toReal else m.toReal

/-- A number and its sign on the extended real line. -/
noncomputable def toEReal (s : Bool) (m : ℝ≥0∞) : EReal := if s then -m else m

/-- The base of decimal numbers. -/
noncomputable def ten : ℝ := (10 : ℕ)

/-- The number one. -/
noncomputable def unit : Extended := signed false 1

/-! ### Operations -/

/-- The sign is the only thing that changes. -/
def negate : Extended → Extended
  | undefined => undefined
  | signed s m => signed (!s) m

open Classical in
/-- Magnitudes with one sign are added, and with two signs the smaller one is subtracted from the
larger one.  Two infinities of different signs have no sum. -/
noncomputable def plus : Extended → Extended → Extended
  | signed s m, signed t n =>
      if s = t then signed s (m + n)
      else if m = ⊤ ∧ n = ⊤ then undefined
      else if m = n then signed false 0
      else if n < m then signed s (m - n)
      else signed t (n - m)
  | _, _ => undefined

open Classical in
/-- Zero and an infinity have no product. -/
noncomputable def times : Extended → Extended → Extended
  | signed s m, signed t n =>
      if m = 0 ∧ n = ⊤ ∨ m = ⊤ ∧ n = 0 then undefined else signed (s ^^ t) (m * n)
  | _, _ => undefined

open Classical in
/-- Two zeros have no quotient, and neither have two infinities. -/
noncomputable def divided : Extended → Extended → Extended
  | signed s m, signed t n =>
      if m = 0 ∧ n = 0 ∨ m = ⊤ ∧ n = ⊤ then undefined else signed (s ^^ t) (m / n)
  | _, _ => undefined

/-- A number that is an integer. -/
def IsInteger (x : ℝ) : Prop := ∃ n : ℤ, x = n

/-- A number that is an odd integer. -/
def IsOdd (x : ℝ) : Prop := ∃ n : ℤ, Odd n ∧ x = n

open Classical in
/-- The power of a base that is not one, with an exponent that is not zero.  With an infinite
exponent it is what the powers tend to, also for the base minus one.  Negative numbers have powers
with integers only, and zero and infinity have powers of a sign with odd integers only. -/
noncomputable def raised : Extended → Extended → Extended
  | signed s m, signed t n =>
      if n = ⊤ then
        if m = 1 then unit
        else if 1 < m ↔ t = false then signed false ⊤
        else signed false 0
      else
        let y := value (signed t n)
        if s = true ∧ m ≠ 0 ∧ m ≠ ⊤ ∧ ¬IsInteger y then undefined
        else signed (s && IsOdd y) (m ^ y)
  | _, _ => undefined

open Classical in
/-- The power of a base.  With the exponent zero and with the base one it is one, also if the other
operand is undefined. -/
noncomputable def power (b x : Extended) : Extended :=
  if (∃ t, x = signed t 0) ∨ b = unit then unit else raised b x

/-! ### Functions -/

open Classical in
/-- A function with its limits at the infinities. -/
noncomputable def lift (f : ℝ → ℝ) (low high : Extended) : Extended → Extended
  | undefined => undefined
  | signed s m =>
      if m = ⊤ then if s then low else high else ofReal (f (value (signed s m)))

/-- An odd function, whose zeros have signs. -/
noncomputable def liftOdd (f : ℝ → ℝ) (high : Extended) : Extended → Extended
  | undefined => undefined
  | signed s m =>
      let y := lift f undefined high (signed false m)
      if s then negate y else y

open Classical in
/-- A logarithm. -/
noncomputable def logarithm (f : ℝ → ℝ) : Extended → Extended
  | undefined => undefined
  | signed s m =>
      if m = 0 then signed true ⊤
      else if s then undefined
      else lift f undefined (signed false ⊤) (signed false m)

open Classical in
/-- The square root.  Zero keeps its sign. -/
noncomputable def root : Extended → Extended
  | undefined => undefined
  | signed s m =>
      if m = 0 then signed s 0
      else if s then undefined
      else lift Real.sqrt undefined (signed false ⊤) (signed false m)

/-- The absolute value. -/
def magnitude : Extended → Extended
  | undefined => undefined
  | signed _ m => signed false m

open Classical in
/-- A function on the numbers from minus one to one. -/
noncomputable def within (f : Extended → Extended) : Extended → Extended
  | undefined => undefined
  | signed s m => if m ≤ 1 then f (signed s m) else undefined

/-- The arc tangent. -/
noncomputable def arctangent : Extended → Extended :=
  liftOdd Real.arctan (ofReal (Real.pi / (2 : ℕ)))

/-- The tangent. -/
noncomputable def tangent (c : Extended) : Extended :=
  divided (liftOdd Real.sin undefined c) (lift Real.cos undefined undefined c)

/-- The elementary functions. -/
noncomputable def function : Elementary → Extended → Extended
  | .exp => lift Real.exp (signed false 0) (signed false ⊤)
  | .ln => logarithm Real.log
  | .log10 => logarithm (Real.logb ten)
  | .sqrt => root
  | .abs => magnitude
  | .sin => liftOdd Real.sin undefined
  | .cos => lift Real.cos undefined undefined
  | .tan => tangent
  | .cot => fun c => divided unit (tangent c)
  | .arcsin => within (liftOdd Real.arcsin undefined)
  | .arccos => within (lift Real.arccos undefined undefined)
  | .arctan => arctangent
  | .arccot => fun c => arctangent (divided unit c)

/-! ### The numbers of the calculator -/

open Classical in
/-- Comparison on the extended real line.  What is undefined is related to nothing. -/
noncomputable def compare (r : EReal → EReal → Prop) : Extended → Extended → Bool
  | signed s m, signed t n => r (toEReal s m) (toEReal t n)
  | _, _ => false

open Classical in
/-- Neither undefined nor infinite. -/
noncomputable def finite : Extended → Bool
  | undefined => false
  | signed _ m => m ≠ ⊤

open Classical in
/-- What a number is printed like. -/
noncomputable def reading : Extended → Reading
  | undefined => .undefined
  | signed s m => if m = ⊤ then .infinite s else .finite (Reading.printed (value (signed s m)))

/-- A text for each number, the same for the numbers that are printed alike. -/
noncomputable def text (c : Extended) : String :=
  match reading c with
  | .undefined => "NaN"
  | .infinite s => if s then "-inf" else "inf"
  | .finite q => Number.text (⟨q⟩ : Ratio)

open Classical in
noncomputable instance : Number Extended where
  add := plus
  sub c d := plus c (negate d)
  mul := times
  div := divided
  neg := negate
  ofInt n := ofReal n
  ofDecimal n p := ofReal (n * ten ^ p)
  undefined := undefined
  infinity := signed false ⊤
  pi := ofReal Real.pi
  euler := ofReal (Real.exp 1)
  ln10 := ofReal (Real.log ten)
  pow := power
  apply := function
  same := compare (· = ·)
  less := compare (· < ·)
  isFinite := finite
  nearest c := if c.value < 0 then -round (-c.value) else round c.value
  reading := reading
  text := text

/-! ### Real values -/

/-- A finite number has a real value. -/
def Denotes (c : Extended) (x : ℝ) : Prop :=
  ∃ s : Bool, ∃ m : ℝ≥0, c = signed s m ∧ x = if s then -(m : ℝ) else m

variable {c d : Extended} {x y : ℝ}

theorem denotes_ofReal (x : ℝ) : Denotes (ofReal x) x := by
  refine ⟨_, Real.toNNReal |x|, rfl, ?_⟩
  rw [Real.coe_toNNReal _ (abs_nonneg x)]
  by_cases hx : x < 0
  · simp [hx, abs_of_neg hx]
  · simp [hx, abs_of_nonneg (not_lt.1 hx)]

theorem denotes_ofInt (n : ℤ) : Denotes (Arithmetic.ofInt n) n := denotes_ofReal n

theorem denotes_zero : Denotes Arithmetic.zero 0 := by
  have h : Denotes Arithmetic.zero ((0 : ℤ) : ℝ) := denotes_ofInt 0
  rwa [Int.cast_zero] at h

theorem denotes_tolerance : Denotes Arithmetic.tolerance (1 / 10 ^ 10) := by
  have h : Denotes Arithmetic.tolerance ((1 : ℕ) * ten ^ (-10 : ℤ)) := denotes_ofReal _
  convert h using 1
  norm_num [ten]

namespace Denotes

theorem value_eq (hc : Denotes c x) : c.value = x := by
  obtain ⟨s, m, rfl, rfl⟩ := hc
  simp [value]

theorem isFinite (hc : Denotes c x) : Arithmetic.isFinite c = true := by
  obtain ⟨s, m, rfl, -⟩ := hc
  show finite (signed s m) = true
  simp [finite]

theorem neg (hc : Denotes c x) : Denotes (-c) (-x) := by
  obtain ⟨s, m, rfl, rfl⟩ := hc
  refine ⟨!s, m, rfl, ?_⟩
  cases s <;> simp

theorem add (hc : Denotes c x) (hd : Denotes d y) : Denotes (c + d) (x + y) := by
  obtain ⟨s, m, rfl, rfl⟩ := hc
  obtain ⟨t, n, rfl, rfl⟩ := hd
  show Denotes (plus (signed s m) (signed t n)) _
  rw [plus]
  by_cases hst : s = t
  · rw [if_pos hst]
    refine ⟨s, m + n, by push_cast; rfl, ?_⟩
    subst hst
    cases s <;> push_cast
    · simp
    · simp
      ring
  · rw [if_neg hst, if_neg (by simp)]
    obtain rfl : t = !s := by revert hst; cases s <;> cases t <;> simp
    -- the larger magnitude gives the sign, and equal ones give the zero without a sign
    rcases lt_trichotomy m n with hlt | rfl | hlt
    · have hne : (m : ℝ≥0∞) ≠ n := by exact_mod_cast hlt.ne
      have hless : ¬(n : ℝ≥0∞) < m := by exact_mod_cast hlt.le.not_gt
      rw [if_neg hne, if_neg hless]
      refine ⟨!s, n - m, by rw [ENNReal.coe_sub], ?_⟩
      rw [NNReal.coe_sub hlt.le]
      cases s <;> simp <;> ring
    · rw [if_pos rfl]
      refine ⟨false, 0, rfl, ?_⟩
      cases s <;> simp
    · have hne : (m : ℝ≥0∞) ≠ n := by exact_mod_cast hlt.ne'
      have hless : (n : ℝ≥0∞) < m := by exact_mod_cast hlt
      rw [if_neg hne, if_pos hless]
      refine ⟨s, m - n, by rw [ENNReal.coe_sub], ?_⟩
      rw [NNReal.coe_sub hlt.le]
      cases s <;> simp <;> ring

theorem sub (hc : Denotes c x) (hd : Denotes d y) : Denotes (c - d) (x - y) := by
  rw [sub_eq_add_neg]
  exact hc.add hd.neg

theorem mul (hc : Denotes c x) (hd : Denotes d y) : Denotes (c * d) (x * y) := by
  obtain ⟨s, m, rfl, rfl⟩ := hc
  obtain ⟨t, n, rfl, rfl⟩ := hd
  show Denotes (times (signed s m) (signed t n)) _
  rw [times, if_neg (by simp)]
  refine ⟨s ^^ t, m * n, by push_cast; rfl, ?_⟩
  cases s <;> cases t <;> simp

theorem div (hc : Denotes c x) (hd : Denotes d y) (hy : y ≠ 0) : Denotes (c / d) (x / y) := by
  obtain ⟨s, m, rfl, rfl⟩ := hc
  obtain ⟨t, n, rfl, rfl⟩ := hd
  have hn : n ≠ 0 := by
    rintro rfl
    simp at hy
  show Denotes (divided (signed s m) (signed t n)) _
  rw [divided, if_neg (by simp [hn])]
  refine ⟨s ^^ t, m / n, by rw [ENNReal.coe_div hn], ?_⟩
  cases s <;> cases t <;> simp [neg_div, div_neg]

theorem abs (hc : Denotes c x) : Denotes (Arithmetic.apply .abs c) |x| := by
  obtain ⟨s, m, rfl, rfl⟩ := hc
  refine ⟨false, m, rfl, ?_⟩
  cases s <;> simp

theorem sqrt (hc : Denotes c x) (hx : 0 ≤ x) : Denotes (Arithmetic.apply .sqrt c) √x := by
  obtain ⟨s, m, rfl, rfl⟩ := hc
  show Denotes (root (signed s m)) _
  rw [root]
  by_cases hm : m = 0
  · subst hm
    rw [if_pos (by simp)]
    exact ⟨s, 0, rfl, by simp⟩
  · have hpos : 0 < (m : ℝ) := by exact_mod_cast pos_iff_ne_zero.2 hm
    cases s with
    | true => simp only [if_true] at hx; linarith
    | false =>
        rw [if_neg (by simpa using hm), if_neg (by simp), lift, if_neg (by simp)]
        exact denotes_ofReal _

theorem toEReal_eq (s : Bool) (m : ℝ≥0) :
    toEReal s m = ((if s then -(m : ℝ) else m : ℝ) : EReal) := by
  cases s <;> simp [toEReal] <;> rfl

/-- The order is that of the real numbers. -/
theorem less_eq (hc : Denotes c x) (hd : Denotes d y) : Arithmetic.less c d = true ↔ x < y := by
  obtain ⟨s, m, rfl, rfl⟩ := hc
  obtain ⟨t, n, rfl, rfl⟩ := hd
  show compare (· < ·) (signed s m) (signed t n) = true ↔ _
  simp only [compare, decide_eq_true_eq, toEReal_eq, EReal.coe_lt_coe_iff]

/-- A finite number is printed like its value. -/
theorem reading_eq (hc : Denotes c x) : Number.reading c = .finite (Reading.printed x) := by
  have hvalue := hc.value_eq
  obtain ⟨s, m, rfl, -⟩ := hc
  show reading (signed s m) = _
  rw [reading, if_neg ENNReal.coe_ne_top, hvalue]

end Denotes

end Extended

end Reckoner
