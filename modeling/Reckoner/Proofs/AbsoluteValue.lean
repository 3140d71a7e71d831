/-
**Absolute values of numbers.**

A function of a number is replaced by an integer when it lies within the tolerance of one.  For the
absolute value, which is a rational number like its argument, this is not the same as being an
integer: a small number becomes zero, and whatever it is multiplied by is lost.

What remains true is that no replacement is further off than the tolerance, and that nothing is lost
where every absolute value is an integer or keeps clear of the integers.  The second statement is
about whole expressions.  It follows from the one about all functions, with an absolute value that
is only defined where it keeps clear of the integers, or is one.

Main definitions:

* `Reckoner.absolute` — the absolute value as the only function;
* `Reckoner.ExactAbsolute` — numbers whose absolute values are exact;
* `Reckoner.KeepsClear` — a rational number that is an integer or not close to one;
* `Reckoner.Expr.IsMagnitude` — numbers with the four operations and absolute values;
* `Reckoner.Expr.AbsolutesKeepClear` — all absolute values in an expression keep clear of integers;
* `Reckoner.Magnitude` — the rationals with exact absolute values.

Main results:

* `Reckoner.Expr.simplifyApply_const` — a function of a number becomes an integer within the
  tolerance, or stays;
* `Reckoner.Expr.simplify_magnitude` — **absolute values that keep clear of the integers are
  simplified exactly**;
* `Reckoner.Expr.simplify_tinyMagnitude` — others are not.
-/

import Mathlib
import Reckoner.Proofs.SimplifyValue

set_option autoImplicit false

namespace Reckoner

open Arithmetic (nearInteger? tolerance)

/-! ### Numbers close to integers -/

/-- The absolute value as the only function. -/
def absolute : Functions ℚ
  | .abs, u => some |u|
  | _, _ => none

/-- A rational number that is an integer, or further than the tolerance from every integer. -/
def KeepsClear (u : ℚ) : Prop := ∀ n : ℤ, |u - n| < 1 / 10 ^ 10 → u = n

/-- No other integer is close to an integer. -/
theorem keepsClear_intCast (m : ℤ) : KeepsClear m := by
  intro n h
  have close : |m - n| < 1 := by
    have : ((|m - n| : ℤ) : ℚ) < (1 : ℤ) := by
      push_cast
      exact h.trans (by norm_num)
    exact_mod_cast this
  rw [Int.abs_lt_one_iff] at close
  exact_mod_cast (show m = n by omega)

variable {κ : Type} [Number κ]

/-- The absolute values of numbers are exact. -/
def ExactAbsolute (κ : Type) [Number κ] : Prop :=
  ∀ c : κ, Number.value (Arithmetic.apply .abs c) = |Number.value c|

section Nearest

variable [ExactNumber κ]

theorem value_tolerance : Number.value (tolerance : κ) = 1 / 10 ^ 10 := by
  rw [tolerance, ExactNumber.value_ofDecimal]
  norm_num

/-- An integer that a number is taken for lies within the tolerance of it. -/
theorem abs_sub_lt_of_nearInteger? (exact : ExactAbsolute κ) {c : κ} {n : ℤ}
    (h : nearInteger? c = some n) : |Number.value c - n| < 1 / 10 ^ 10 := by
  unfold nearInteger? at h
  split at h
  · rename_i hc
    obtain rfl := Option.some.inj h
    rwa [ExactNumber.finite, Bool.true_and, ExactNumber.less_iff, exact, ExactNumber.value_sub,
      ExactNumber.value_ofInt, value_tolerance] at hc
  · simp at h

open Classical in
/-- The absolute value where it keeps clear of the integers. -/
noncomputable def clearAbsolute : Functions ℚ := fun f u =>
  (absolute f u).filter fun v => KeepsClear v

theorem clearAbsolute_eq_some_iff {f : Elementary} {u v : ℚ} :
    clearAbsolute f u = some v ↔ absolute f u = some v ∧ KeepsClear v := by
  simp [clearAbsolute]

/-- An absolute value that keeps clear of the integers is folded exactly. -/
theorem foldsExactly_clearAbsolute (exact : ExactAbsolute κ) :
    FoldsExactly κ clearAbsolute := by
  intro f c n v hn hv
  obtain ⟨hv, clear⟩ := clearAbsolute_eq_some_iff.1 hv
  cases f with
  | abs =>
      obtain rfl : |valueIn ℚ c| = v := Option.some.inj hv
      have close := abs_sub_lt_of_nearInteger? exact hn
      rw [exact] at close
      exact clear n (by simpa [valueIn] using close)
  | _ => simp [absolute] at hv

end Nearest

namespace Expr

variable {I J : Functions ℚ} {σ : Scope ℚ} {e : Expr κ} {v : ℚ}

/-- A function of a number becomes an integer within the tolerance of its value, or it stays. -/
theorem simplifyApply_const [ExactNumber κ] (exact : ExactAbsolute κ) (f : Elementary) (c : κ) :
    simplifyApply f (.const c) = .apply f (.const c) ∨
      ∃ n : ℤ, simplifyApply f (.const c) = ofInt n ∧
        |Number.value (Arithmetic.apply f c) - n| < 1 / 10 ^ 10 := by
  simp only [simplifyApply]
  split
  · rename_i n hn
    exact .inr ⟨n, rfl, abs_sub_lt_of_nearInteger? exact hn⟩
  · exact .inl rfl

/-! ### Whole expressions -/

/-- Built from numbers by the four operations and absolute values. -/
def IsMagnitude : Expr κ → Prop
  | .var _ | .pow _ _ => False
  | .const _ => True
  | .add a b | .sub a b | .mul a b | .div a b => a.IsMagnitude ∧ b.IsMagnitude
  | .apply f a => f = .abs ∧ a.IsMagnitude

/-- Every absolute value in an expression keeps clear of the integers. -/
def AbsolutesKeepClear (σ : Scope ℚ) : Expr κ → Prop
  | .var _ | .const _ => True
  | .add a b | .sub a b | .mul a b | .div a b | .pow a b =>
      a.AbsolutesKeepClear σ ∧ b.AbsolutesKeepClear σ
  | .apply _ a => a.AbsolutesKeepClear σ ∧ ∀ u, HasValue absolute σ a u → KeepsClear |u|

/-- A value remains where the functions have more values. -/
theorem HasValue.mono (hIJ : ∀ f u v, I f u = some v → J f u = some v) (h : HasValue I σ e v) :
    HasValue J σ e v := by
  induction h with
  | var hx => exact .var hx
  | const c => exact .const c
  | add _ _ iha ihb => exact .add iha ihb
  | sub _ _ iha ihb => exact .sub iha ihb
  | mul _ _ iha ihb => exact .mul iha ihb
  | div _ _ hv iha ihb => exact .div iha ihb hv
  | pow _ _ hn iha ihb => exact .pow iha ihb hn
  | apply _ hf ih => exact .apply ih (hIJ _ _ _ hf)

/-- Where all absolute values keep clear of the integers, those that do not are not needed. -/
theorem HasValue.clear (h : HasValue absolute σ e v) (clear : e.AbsolutesKeepClear σ) :
    HasValue clearAbsolute σ e v := by
  induction h with
  | var hx => exact .var hx
  | const c => exact .const c
  | add _ _ iha ihb => exact .add (iha clear.1) (ihb clear.2)
  | sub _ _ iha ihb => exact .sub (iha clear.1) (ihb clear.2)
  | mul _ _ iha ihb => exact .mul (iha clear.1) (ihb clear.2)
  | div _ _ hv iha ihb => exact .div (iha clear.1) (ihb clear.2) hv
  | pow _ _ hn iha ihb => exact .pow (iha clear.1) (ihb clear.2) hn
  | @apply f a u v ha hf ih =>
      refine .apply (ih clear.1) (clearAbsolute_eq_some_iff.2 ⟨hf, ?_⟩)
      cases f with
      | abs => exact Option.some.inj hf ▸ clear.2 u ha
      | _ => simp [absolute] at hf

namespace IsMagnitude

omit [Number κ] in
theorem named (h : e.IsMagnitude) : Named e := by
  induction e with
  | var x => exact h.elim
  | const c => exact onlyNames_const c
  | add a b iha ihb => exact onlyNames_add.2 ⟨iha h.1, ihb h.2⟩
  | sub a b iha ihb => exact onlyNames_sub.2 ⟨iha h.1, ihb h.2⟩
  | mul a b iha ihb => exact onlyNames_mul.2 ⟨iha h.1, ihb h.2⟩
  | div a b iha ihb => exact onlyNames_div.2 ⟨iha h.1, ihb h.2⟩
  | pow a b _ _ => exact h.elim
  | apply f a ih => exact onlyNames_apply.2 (ih h.2)

/-- The degree is at most the number of nodes. -/
theorem degree_le (h : e.IsMagnitude) : e.degree I σ ≤ e.size := by
  induction e with
  | var x => exact h.elim
  | const c => exact Nat.zero_le _
  | add a b iha ihb | sub a b iha ihb | mul a b iha ihb | div a b iha ihb =>
      have ha := iha h.1
      have hb := ihb h.2
      simp only [degree, size]
      omega
  | pow a b _ _ => exact h.elim
  | apply f a _ => simp only [degree, size]; omega

theorem degreesBounded (h : e.IsMagnitude) (hsize : e.size < degreeBound) :
    e.DegreesBounded I σ .polynomial := by
  have hdegree : e.degree I σ < degreeBound := h.degree_le.trans_lt hsize
  induction e with
  | var x => exact h.elim
  | const c => exact ⟨hdegree, trivial⟩
  | add a b iha ihb | sub a b iha ihb | mul a b iha ihb | div a b iha ihb =>
      simp only [size] at hsize
      exact ⟨hdegree, iha h.1 (by omega) (h.1.degree_le.trans_lt (by omega)),
        ihb h.2 (by omega) (h.2.degree_le.trans_lt (by omega))⟩
  | pow a b _ _ => exact h.elim
  | apply f a ih =>
      simp only [size] at hsize
      exact ⟨hdegree, ih h.2 (by omega) (h.2.degree_le.trans_lt (by omega))⟩

end IsMagnitude

/-- **Absolute values that keep clear of the integers are simplified exactly.**  Of all numbers, a
function of a number is replaced by an integer only within the tolerance, and an expression of
numbers and absolute values keeps its value if none of them is close to an integer without being
one. -/
theorem simplify_magnitude [ExactNumber κ] (exact : ExactAbsolute κ) (h : e.IsMagnitude)
    (hsize : e.size < degreeBound) (clear : e.AbsolutesKeepClear σ) (hv : HasValue absolute σ e v) :
    HasValue absolute σ e.simplify v ∧
      ∀ (f : Elementary) (c : κ), simplifyApply f (.const c) = .apply f (.const c) ∨
        ∃ n : ℤ, simplifyApply f (.const c) = ofInt n ∧
          |Number.value (Arithmetic.apply f c) - n| < 1 / 10 ^ 10 := by
  have value : HasValue clearAbsolute σ e.simplify v :=
    simplify_hasValue (foldsExactly_clearAbsolute exact) h.named (h.degreesBounded hsize)
      (hv.clear clear)
  exact ⟨value.mono fun f u v hf => (clearAbsolute_eq_some_iff.1 hf).1,
    simplifyApply_const exact⟩

end Expr

/-! ### Rationals with absolute values -/

/-- The rationals with exact absolute values. -/
def Magnitude : Type := Ratio

namespace Magnitude

/-- The absolute value is exact, and everything else is as for `Reckoner.Ratio`. -/
instance : Number Magnitude where
  __ := (inferInstance : Number Ratio)
  apply f c := match f with
    | .abs => (⟨|Ratio.rational c|⟩ : Ratio)
    | f => Arithmetic.apply (κ := Ratio) f c

instance : ExactNumber Magnitude where
  __ := (inferInstance : ExactNumber Ratio)

theorem exactAbsolute : ExactAbsolute Magnitude := fun _ => rfl

end Magnitude

namespace Expr

/-- `abs(1 - 5 / 2) * abs(-3)`. -/
def twoMagnitudes : Expr Magnitude :=
  .mul (.apply .abs (.sub (ofInt 1) (.div (ofInt 5) (ofInt 2)))) (.apply .abs (ofInt (-3)))

theorem hasValue_twoMagnitudes (σ : Scope ℚ) : HasValue absolute σ twoMagnitudes (9 / 2) := by
  have two : HasValue absolute σ (ofInt 2 : Expr Magnitude) _ := .ofInt 2
  have left := (HasValue.ofInt (κ := Magnitude) 1).sub
    ((HasValue.ofInt (κ := Magnitude) 5).div two (by norm_num))
  have := (left.apply (f := .abs) rfl).mul ((HasValue.ofInt (-3)).apply (f := .abs) rfl)
  norm_num [abs_of_neg] at this
  exact this

/-- One and a half is not close to an integer, and three is one. -/
theorem absolutesKeepClear_twoMagnitudes (σ : Scope ℚ) : twoMagnitudes.AbsolutesKeepClear σ := by
  have two : HasValue absolute σ (ofInt 2 : Expr Magnitude) _ := .ofInt 2
  have left := (HasValue.ofInt (κ := Magnitude) 1).sub
    ((HasValue.ofInt (κ := Magnitude) 5).div two (by norm_num))
  refine ⟨⟨⟨trivial, trivial, trivial⟩, fun u hu n hn => ?_⟩, trivial, fun u hu => ?_⟩
  · rw [hu.unique left] at hn
    norm_num [abs_of_neg, abs_lt] at hn
    have below : (1 : ℚ) < n := by linarith
    have above : (n : ℚ) < 2 := by linarith
    norm_cast at below above
    omega
  · rw [hu.unique (.ofInt (-3))]
    exact_mod_cast keepsClear_intCast |(-3)|

/-- The product is simplified and keeps its value. -/
theorem simplify_magnitude_twoMagnitudes : ExactAbsolute Magnitude ∧ twoMagnitudes.IsMagnitude ∧
    twoMagnitudes.size < degreeBound ∧ twoMagnitudes.AbsolutesKeepClear .empty ∧
      HasValue absolute .empty twoMagnitudes (9 / 2) ∧
      HasValue absolute .empty twoMagnitudes.simplify (9 / 2) := by
  have h : twoMagnitudes.IsMagnitude := ⟨⟨rfl, trivial, trivial, trivial⟩, rfl, trivial⟩
  have hsize : twoMagnitudes.size < degreeBound := by decide
  have clear := absolutesKeepClear_twoMagnitudes .empty
  have value := hasValue_twoMagnitudes .empty
  exact ⟨Magnitude.exactAbsolute, h, hsize, clear, value,
    (simplify_magnitude Magnitude.exactAbsolute h hsize clear value).1⟩

/-- `abs(1 / 100000000000) * 100000000000`. -/
def tinyMagnitude : Expr Magnitude :=
  .mul (.apply .abs (.div (ofInt 1) (ofInt 100000000000))) (ofInt 100000000000)

/-- The absolute value is close to zero, and one is simplified to zero. -/
theorem simplify_tinyMagnitude : tinyMagnitude.IsMagnitude ∧
    HasValue absolute .empty tinyMagnitude 1 ∧ tinyMagnitude.simplify = ofInt 0 ∧
      ¬HasValue absolute .empty tinyMagnitude.simplify 1 := by
  have hsimplify : tinyMagnitude.simplify = ofInt 0 := same_iff_eq.1 (by cbv)
  refine ⟨⟨⟨rfl, trivial, trivial⟩, trivial⟩, ?_, hsimplify, fun h => ?_⟩
  · have big : HasValue absolute .empty (ofInt 100000000000 : Expr Magnitude) _ := .ofInt _
    have := (((HasValue.ofInt (κ := Magnitude) 1).div big (by norm_num)).apply
      (f := .abs) rfl).mul big
    norm_num at this
    exact this
  · rw [hsimplify, hasValue_ofInt_iff] at h
    norm_num at h

end Expr

end Reckoner
