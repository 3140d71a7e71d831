/-
**The derivative of a constant.**

An expression that does not mention the variable has the derivative zero, and simplification finds
that out: every rule multiplies the derivative of some part by something, or divides it, and a
product with zero is zero whatever the other factor is simplified to.

A quotient with numerator zero is zero only if its divisor is not.  The rules write divisors of
their own, which can be zero where the function itself is defined: the derivative of a root divides
by the root, and at zero a quotient of two zeros is left.  So the derivative has to have a value
somewhere.  It then keeps that value when it is simplified, and so do its divisors.

Whatever makes simplification lose a value can also turn a divisor into zero.  The conditions under
which values are kept are therefore needed here as well, each of them.

Main definitions:

* `Reckoner.Expr.Vanishes` — simplified to the number zero;
* `Reckoner.Expr.ZeroOverZero` — an expression without the variable, with a value, and with a
  derivative that is simplified to a quotient of two zeros.

Main results:

* `Reckoner.Expr.Graded.vanishes_div` — zero is divided by what has a value;
* `Reckoner.Expr.simplify_derivative_of_not_mentions` — **the derivative of an expression without
  the variable is simplified to zero**, if it has a value;
* `Reckoner.Expr.derivative_rootOfZero` — the derivative of the root of zero is not;
* `Reckoner.Expr.derivatives_zeroOverZero` — none of the conditions can be left out.
-/

import Mathlib
import Reckoner.Expr.Derivative
import Reckoner.Proofs.AbsoluteValue
import Reckoner.Proofs.Occurrence
import Reckoner.Proofs.SimplifyValue

set_option autoImplicit false

namespace Reckoner.Expr

open Arithmetic (isZero)

variable {κ : Type} [Number κ] {K : Type} [Field K]
variable {I : Functions K} {σ : Scope K} {g : Grading}
variable {a b e : Expr κ} {v : K} {d q : ℕ} {again : Expr κ → Expr κ} {x : String}

/-- One pass simplifies an expression to the number zero. -/
def Vanishes (again : Expr κ → Expr κ) (e : Expr κ) : Prop := simplifyWith again e = ofInt 0

variable [ExactNumber κ]

/-! ### Operations on zero -/

theorem isZeroConst_zero : (ofInt 0 : Expr κ).isZeroConst = true := by
  rw [ofInt, isZeroConst, isZero, ExactNumber.same_iff]
  rfl

omit [ExactNumber κ] in
theorem vanishes_ofInt : Vanishes again (ofInt 0 : Expr κ) := rfl

theorem Vanishes.add (ha : Vanishes again a) (hb : Vanishes again b) :
    Vanishes again (.add a b) := by
  rw [Vanishes, simplifyWith, ha, hb]
  refine const_eq_ofInt ?_
  simp [ExactNumber.value_add, ExactNumber.value_ofInt]

theorem Vanishes.sub (ha : Vanishes again a) (hb : Vanishes again b) :
    Vanishes again (.sub a b) := by
  rw [Vanishes, simplifyWith, ha, hb]
  refine const_eq_ofInt ?_
  simp [ExactNumber.value_sub, ExactNumber.value_ofInt]

/-- A product with zero on the left is zero, whatever stands on the right. -/
theorem Vanishes.mul_right (ha : Vanishes again a) (b : Expr κ) : Vanishes again (.mul a b) := by
  rw [Vanishes, simplifyWith, ha]
  generalize simplifyWith again b = b
  unfold simplifyMul
  split
  · rename_i hc
    rw [ofInt, const.injEq] at hc
    refine const_eq_ofInt ?_
    rw [ExactNumber.value_mul, ← hc, ExactNumber.value_ofInt]
    simp
  · simp [isZeroConst_zero]

/-- A product with zero on the right is zero, whatever stands on the left. -/
theorem Vanishes.mul_left (hb : Vanishes again b) (a : Expr κ) : Vanishes again (.mul a b) := by
  rw [Vanishes, simplifyWith, hb]
  generalize simplifyWith again a = a
  unfold simplifyMul
  split
  · rename_i hc
    rw [ofInt, const.injEq] at hc
    refine const_eq_ofInt ?_
    rw [ExactNumber.value_mul, ← hc, ExactNumber.value_ofInt]
    simp
  · simp [isZeroConst_zero]

theorem Vanishes.negated (h : Vanishes again e) : Vanishes again e.negated := h.mul_left _

/-- A quotient with numerator zero is zero, if the divisor is not simplified to zero. -/
theorem Vanishes.div (ha : Vanishes again a) (hb : (simplifyWith again b).isZeroConst = false) :
    Vanishes again (.div a b) := by
  rw [Vanishes, simplifyWith, ha]
  generalize simplifyWith again b = b at hb
  unfold simplifyDiv
  split
  · rename_i c d hc
    have hd : isZero d = false := hb
    rw [hd, if_neg (by simp)]
    rw [ofInt, const.injEq] at hc
    refine const_eq_ofInt ?_
    have hd : Number.value d ≠ 0 := fun h =>
      Bool.eq_false_iff.1 hd ((isZero_iff (K := ℚ)).2 (valueIn_eq_zero_iff.2 h))
    rw [ExactNumber.value_div _ _ hd, ← hc, ExactNumber.value_ofInt]
    simp
  · simp [isZeroConst_zero]

/-! ### Divisors with a value -/

variable [CharZero K]

/-- What has a value other than zero is not simplified to zero. -/
theorem Graded.isZeroConst_simplifyWith (folds : FoldsExactly κ I) (hagain : KeepsGrades I σ again)
    (h : Graded 0 I σ g e v d q) (hv : v ≠ 0) :
    (Expr.simplifyWith again e).isZeroConst = false :=
  Bool.eq_false_iff.2 fun hz => hv ((h.simplifyWith folds hagain).hasValue.eq_zero hz)

/-- **Zero is divided by what has a value**: a quotient that has a value vanishes with its
numerator. -/
theorem Graded.vanishes_div (folds : FoldsExactly κ I) (hagain : KeepsGrades I σ again)
    (h : Graded 0 I σ g (.div a b) v d q)
    (ha : ∀ {u : K} {i k : ℕ}, Graded 0 I σ g a u i k → Vanishes again a) :
    Vanishes again (.div a b) := by
  cases h with
  | div hu hw hne => exact (ha hu).div (hw.isZeroConst_simplifyWith folds hagain hne)

omit [ExactNumber κ] [CharZero K] in
theorem Graded.right_of_mul (h : Graded 0 I σ g (.mul a b) v d q) :
    ∃ (u : K) (i k : ℕ), Graded 0 I σ g b u i k := by
  cases h with
  | mul _ hb => exact ⟨_, _, _, hb⟩

/-- The slope of a function at an argument with the derivative zero vanishes. -/
theorem Graded.vanishes_slope (folds : FoldsExactly κ I) (hagain : KeepsGrades I σ again)
    {f : Elementary} (h : Graded 0 I σ g (f.slope a b) v d q)
    (hb : ∀ {u : K} {i k : ℕ}, Graded 0 I σ g b u i k → Vanishes again b) :
    Vanishes again (f.slope a b) := by
  have factor {c : Expr κ} (h : Graded 0 I σ g (.mul c b) v d q) : Vanishes again (.mul c b) := by
    obtain ⟨u, i, k, hu⟩ := h.right_of_mul
    exact (hb hu).mul_left c
  have negated {u : K} {i k : ℕ} (h : Graded 0 I σ g b.negated u i k) :
      Vanishes again b.negated := by
    obtain ⟨w, j, l, hw⟩ := h.right_of_mul
    exact (hb hw).negated
  -- the derivative of the argument is a factor of the slope, or is divided by something
  cases f with
  | exp | abs | sin | cos | tan | cot => exact factor h
  | ln | log10 | sqrt | arcsin | arctan => exact h.vanishes_div folds hagain hb
  | arccos | arccot => exact h.vanishes_div folds hagain negated

/-! ### Derivatives -/

/-- One pass simplifies the derivative of an expression without the variable to zero. -/
theorem Graded.vanishes_derivative (folds : FoldsExactly κ I) (hagain : KeepsGrades I σ again)
    (hx : e.mentions x = false) (h : Graded 0 I σ g (e.derivative x) v d q) :
    Vanishes again (e.derivative x) := by
  induction e generalizing v d q with
  | var y =>
      have hy : y ≠ x := by simpa [mentions] using hx
      rw [derivative, if_neg hy]
      exact vanishes_ofInt
  | const c => exact vanishes_ofInt
  | add a b iha ihb =>
      obtain ⟨ha, hb⟩ := Bool.or_eq_false_iff.1 hx
      cases h with
      | add hu hw => exact (iha ha hu).add (ihb hb hw)
  | sub a b iha ihb =>
      obtain ⟨ha, hb⟩ := Bool.or_eq_false_iff.1 hx
      cases h with
      | sub hu hw => exact (iha ha hu).sub (ihb hb hw)
  | mul a b iha ihb =>
      obtain ⟨ha, hb⟩ := Bool.or_eq_false_iff.1 hx
      cases h with
      | add hab hba =>
          cases hab with
          | mul hu _ =>
              obtain ⟨w, j, l, hw⟩ := hba.right_of_mul
              exact ((iha ha hu).mul_right b).add ((ihb hb hw).mul_left a)
  | div a b iha ihb =>
      obtain ⟨ha, hb⟩ := Bool.or_eq_false_iff.1 hx
      refine h.vanishes_div folds hagain fun hnum => ?_
      cases hnum with
      | sub hab hba =>
          cases hab with
          | mul hu _ =>
              cases hba with
              | mul hw _ => exact ((iha ha hu).mul_right b).sub ((ihb hb hw).mul_right a)
  | pow a b iha _ =>
      obtain ⟨ha, hb⟩ := Bool.or_eq_false_iff.1 hx
      simp only [derivative, hb] at h ⊢
      obtain ⟨w, j, l, hw⟩ := h.right_of_mul
      exact (iha ha hw).mul_left _
  | apply f a ih => exact h.vanishes_slope folds hagain (ih hx)

/-- **The derivative of an expression without the variable is simplified to zero**, if it has a
value.  The names in the expression are identifiers, and the degrees of the derivative are below the
bound. -/
theorem simplify_derivative_of_not_mentions (folds : FoldsExactly κ I)
    (hx : e.mentions x = false) (names : Named e)
    (degrees : (e.derivative x).DegreesBounded I σ .polynomial)
    (h : HasValue I σ (e.derivative x) v) : (e.derivative x).simplify = ofInt 0 := by
  have graded := Graded.of_hasValue h (onlyNames_derivative x names) degrees
  unfold simplify
  cases (e.derivative x).weight with
  | zero => exact graded.vanishes_derivative folds (fun _ _ _ _ _ h => h) hx
  | succ n => exact graded.vanishes_derivative folds (keepsGrades_simplifyWithin folds n) hx

/-- The root of a variable over the variable. -/
def rootOverSelf : Expr Ratio := .div (.apply .sqrt (.var "y")) (.var "y")

/-- The derivative has the value zero where the variable is four. -/
theorem hasValue_derivative_rootOverSelf :
    HasValue Ratio.functions (.single "y" (4 : ℚ)) (rootOverSelf.derivative "x") 0 := by
  have hy : HasValue Ratio.functions (.single "y" (4 : ℚ)) (.var "y" : Expr Ratio) 4 := .var rfl
  have root : HasValue Ratio.functions (.single "y" (4 : ℚ))
      (.apply .sqrt (.var "y") : Expr Ratio) 2 := .apply hy (by decide +kernel)
  have zero : HasValue Ratio.functions (.single "y" (4 : ℚ)) (ofInt 0 : Expr Ratio) _ := .ofInt 0
  have slope := zero.div ((HasValue.ofInt 2).mul root) (by norm_num)
  have square := hy.pow (.ofInt (κ := Ratio) 2) (.inl (by norm_num))
  have := ((slope.mul hy).sub (zero.mul root)).div square (by norm_num)
  norm_num at this
  exact this

/-- The derivative of `sqrt(y) / y` by `x` is simplified to zero. -/
theorem simplify_derivative_rootOverSelf :
    FoldsExactly Ratio Ratio.functions ∧ rootOverSelf.mentions "x" = false ∧ Named rootOverSelf ∧
      (rootOverSelf.derivative "x").DegreesBounded Ratio.functions (.single "y" (4 : ℚ))
        .polynomial ∧
      HasValue Ratio.functions (.single "y" (4 : ℚ)) (rootOverSelf.derivative "x") 0 ∧
      (rootOverSelf.derivative "x").simplify = ofInt 0 := by
  have names : Named rootOverSelf := by
    have : IsName "y" := by decide
    simp [rootOverSelf, Named, this]
  have degrees : (rootOverSelf.derivative "x").DegreesBounded Ratio.functions
      (.single "y" (4 : ℚ)) .polynomial := by
    simp [rootOverSelf, derivative, Elementary.slope, DegreesBounded, degree, Grading.Admits,
      Grading.size, degreeBound]
  exact ⟨Ratio.foldsExactly, rfl, names, degrees, hasValue_derivative_rootOverSelf,
    simplify_derivative_of_not_mentions Ratio.foldsExactly rfl names degrees
      hasValue_derivative_rootOverSelf⟩

/-- The root of zero. -/
def rootOfZero : Expr Ratio := .apply .sqrt (ofInt 0)

/-- The root of zero mentions no variable and has a value, but its derivative divides zero by the
root, and is simplified to a quotient of two zeros. -/
theorem derivative_rootOfZero : rootOfZero.mentions "x" = false ∧ Named rootOfZero ∧
    HasValue Ratio.functions (.single "x" (0 : ℚ)) rootOfZero 0 ∧
    (rootOfZero.derivative "x").simplify = .div (ofInt 0) (ofInt 0) ∧
    (rootOfZero.derivative "x").simplify ≠ ofInt 0 := by
  have hsimplify : (rootOfZero.derivative "x").simplify = .div (ofInt 0) (ofInt 0) :=
    same_iff_eq.1 (by cbv)
  refine ⟨rfl, by simp [rootOfZero, Named], ?_, hsimplify, ?_⟩
  · exact .apply (.ofInt 0) (by decide)
  · rw [hsimplify]
    simp [ofInt]

/-! ### Quotients of zeros -/

/-- An expression does not mention a variable and has a value, but its derivative by the variable is
simplified to a quotient of two zeros. -/
structure ZeroOverZero (I : Functions K) (σ : Scope K) (x : String) (e : Expr κ) : Prop where
  /-- The variable does not occur. -/
  not_mentions : e.mentions x = false
  /-- The expression has a value. -/
  hasValue : ∃ v, HasValue I σ e v
  /-- What is left of the derivative. -/
  simplify_derivative : (e.derivative x).simplify = .div (ofInt 0) (ofInt 0)

omit [ExactNumber κ] [CharZero K] in
theorem ZeroOverZero.simplify_derivative_ne (h : ZeroOverZero I σ x e) :
    (e.derivative x).simplify ≠ ofInt 0 := by
  rw [h.simplify_derivative]
  simp [ofInt]

/-- One over an expression. -/
def reciprocal (e : Expr κ) : Expr κ := .div (ofInt 1) e

omit [ExactNumber κ] in
theorem derivative_ofInt (n : ℤ) : (ofInt n : Expr κ).derivative x = ofInt 0 := rfl

omit [CharZero K] in
/-- The derivative of a reciprocal has a value where the expression is not zero. -/
theorem exists_hasValue_derivative_reciprocal {w : K} (hv : HasValue I σ e v) (hne : v ≠ 0)
    (hw : HasValue I σ (e.derivative x) w) :
    ∃ u, HasValue I σ ((reciprocal e).derivative x) u := by
  have zero : HasValue I σ (ofInt 0 : Expr κ) _ := .ofInt 0
  have square : HasValue I σ (.pow e (ofInt 2)) (v ^ (2 : ℤ)) := hv.pow (.ofInt 2) (.inl hne)
  exact ⟨_, ((zero.mul hv).sub (hw.mul (.ofInt 1))).div square (zpow_ne_zero 2 hne)⟩

theorem zeroOverZero_rootOfZero : Named rootOfZero ∧
    (rootOfZero.derivative "x").DegreesBounded Ratio.functions (.single "x" (0 : ℚ)) .polynomial ∧
    ZeroOverZero Ratio.functions (.single "x" (0 : ℚ)) "x" rootOfZero := by
  obtain ⟨hmentions, hnamed, hvalue, hsimplify, -⟩ := derivative_rootOfZero
  refine ⟨hnamed, ?_, hmentions, ⟨0, hvalue⟩, hsimplify⟩
  simp [rootOfZero, derivative, derivative_ofInt, Elementary.slope, DegreesBounded, degree,
    Grading.Admits, Grading.size, degreeBound]

/-- The difference between a variable and the root that it is spelled like. -/
def nameLikeRoot : Expr Ratio := .sub (.var "sqrt(y)") (.apply .sqrt (.var "y"))

/-- Six for the variable, and four for the argument of the root. -/
def nameLikeRootScope : Scope ℚ :=
  fun x => if x = "sqrt(y)" then some 6 else Scope.single "y" 4 x

theorem zeroOverZero_nameLikeRoot :
    ((reciprocal nameLikeRoot).derivative "x").DegreesBounded Ratio.functions nameLikeRootScope
      .polynomial ∧
    (∃ v, HasValue Ratio.functions nameLikeRootScope
      ((reciprocal nameLikeRoot).derivative "x") v) ∧
    ZeroOverZero Ratio.functions nameLikeRootScope "x" (reciprocal nameLikeRoot) := by
  have y : HasValue Ratio.functions nameLikeRootScope (.var "y" : Expr Ratio) 4 :=
    .var (by decide)
  have root : HasValue Ratio.functions nameLikeRootScope
      (.apply .sqrt (.var "y") : Expr Ratio) 2 := .apply y (by decide +kernel)
  have name : HasValue Ratio.functions nameLikeRootScope (.var "sqrt(y)" : Expr Ratio) 6 :=
    .var (by decide)
  have zero : HasValue Ratio.functions nameLikeRootScope (ofInt 0 : Expr Ratio) _ := .ofInt 0
  have hv : HasValue Ratio.functions nameLikeRootScope nameLikeRoot (6 - 2) := name.sub root
  have hne : (6 - 2 : ℚ) ≠ 0 := by norm_num
  have hderivative : HasValue Ratio.functions nameLikeRootScope (nameLikeRoot.derivative "x") _ :=
    zero.sub (zero.div ((HasValue.ofInt 2).mul root) (by norm_num))
  refine ⟨?_, exists_hasValue_derivative_reciprocal hv hne hderivative, rfl,
    ⟨_, (HasValue.ofInt 1).div hv hne⟩, same_iff_eq.1 (by cbv)⟩
  simp [reciprocal, nameLikeRoot, derivative, derivative_ofInt, Elementary.slope, DegreesBounded,
    degree, Grading.Admits, Grading.size, degreeBound]

/-- The difference of two powers whose exponents are too large to be told apart. -/
def largePowers : Expr Ratio :=
  .sub (.pow (.var "y") (ofInt 3000000001)) (.pow (.var "y") (ofInt 4000000000))

theorem zeroOverZero_largePowers : Named (reciprocal largePowers) ∧
    (∃ v, HasValue Ratio.functions (.single "y" (-1 : ℚ))
      ((reciprocal largePowers).derivative "x") v) ∧
    ZeroOverZero Ratio.functions (.single "y" (-1 : ℚ)) "x" (reciprocal largePowers) := by
  have y : HasValue Ratio.functions (.single "y" (-1 : ℚ)) (.var "y" : Expr Ratio) (-1) := .var rfl
  have zero : HasValue Ratio.functions (.single "y" (-1 : ℚ)) (ofInt 0 : Expr Ratio) _ := .ofInt 0
  have nonzero : (-1 : ℚ) ≠ 0 := by norm_num
  have power (n : ℤ) := y.pow (.ofInt n) (.inl nonzero)
  -- the derivative of a power of another variable is a product with zero
  have slope (n : ℤ) : HasValue Ratio.functions (.single "y" (-1 : ℚ))
      ((Expr.pow (.var "y") (ofInt n) : Expr Ratio).derivative "x")
      ((n : ℚ) * (-1) ^ (n - 1) * ((0 : ℤ) : ℚ)) := by
    have lower : HasValue Ratio.functions (.single "y" (-1 : ℚ))
        (.sub (ofInt n) (ofInt 1) : Expr Ratio) ((n - 1 : ℤ) : ℚ) := by
      rw [Int.cast_sub]
      exact (HasValue.ofInt n).sub (.ofInt 1)
    exact ((HasValue.ofInt n).mul (y.pow lower (.inl nonzero))).mul zero
  have hv : HasValue Ratio.functions (.single "y" (-1 : ℚ)) largePowers _ :=
    (power 3000000001).sub (power 4000000000)
  have hne : (-1 : ℚ) ^ (3000000001 : ℤ) - (-1) ^ (4000000000 : ℤ) ≠ 0 := by
    rw [Odd.neg_one_zpow (by decide), Even.neg_one_zpow (by decide)]
    norm_num
  have hderivative : HasValue Ratio.functions (.single "y" (-1 : ℚ))
      (largePowers.derivative "x") _ := (slope 3000000001).sub (slope 4000000000)
  refine ⟨?_, exists_hasValue_derivative_reciprocal hv hne hderivative, rfl,
    ⟨_, (HasValue.ofInt 1).div hv hne⟩, same_iff_eq.1 (by cbv)⟩
  have : IsName "y" := by decide
  simp [reciprocal, largePowers, Named, this]

/-- An absolute value that is close to zero. -/
def smallMagnitude : Expr Magnitude := .apply .abs (.div (ofInt 1) (ofInt 100000000000))

theorem zeroOverZero_smallMagnitude : Named (reciprocal smallMagnitude) ∧
    ((reciprocal smallMagnitude).derivative "x").DegreesBounded absolute .empty .polynomial ∧
    (∃ v, HasValue absolute .empty ((reciprocal smallMagnitude).derivative "x") v) ∧
    ZeroOverZero absolute .empty "x" (reciprocal smallMagnitude) := by
  have big : HasValue absolute .empty (ofInt 100000000000 : Expr Magnitude) _ := .ofInt _
  have one : HasValue absolute .empty (ofInt 1 : Expr Magnitude) _ := .ofInt _
  have zero : HasValue absolute .empty (ofInt 0 : Expr Magnitude) _ := .ofInt _
  have small := one.div big (by norm_num)
  have hv : HasValue absolute .empty smallMagnitude _ := small.apply (f := .abs) rfl
  have hne : |((1 : ℤ) : ℚ) / ((100000000000 : ℤ) : ℚ)| ≠ 0 := by norm_num
  have slope := ((zero.mul big).sub (zero.mul one)).div
    (big.pow (.ofInt 2) (.inl (by norm_num))) (by norm_num)
  have hderivative : HasValue absolute .empty (smallMagnitude.derivative "x") _ :=
    (small.div hv hne).mul slope
  refine ⟨by simp [reciprocal, smallMagnitude, Named], ?_,
    exists_hasValue_derivative_reciprocal hv hne hderivative, rfl,
    ⟨_, one.div hv hne⟩, same_iff_eq.1 (by cbv)⟩
  simp [reciprocal, smallMagnitude, derivative, derivative_ofInt, Elementary.slope,
    DegreesBounded, degree, Grading.Admits, Grading.size, degreeBound]

/-- **None of the conditions can be left out.**  The derivative of the root of zero has no value.  A
variable that is spelled like a root cancels with it, powers with large exponents cancel with each
other, and a small absolute value is taken for zero: in each of the three, a divisor with a value
becomes zero. -/
theorem derivatives_zeroOverZero :
    ((rootOfZero.derivative "x").simplify ≠ ofInt 0 ∧
      FoldsExactly Ratio Ratio.functions ∧ Named rootOfZero ∧
      (rootOfZero.derivative "x").DegreesBounded Ratio.functions (.single "x" (0 : ℚ))
        .polynomial ∧
      ZeroOverZero Ratio.functions (.single "x" (0 : ℚ)) "x" rootOfZero) ∧
    (FoldsExactly Ratio Ratio.functions ∧
      ((reciprocal nameLikeRoot).derivative "x").DegreesBounded Ratio.functions nameLikeRootScope
        .polynomial ∧
      (∃ v, HasValue Ratio.functions nameLikeRootScope
        ((reciprocal nameLikeRoot).derivative "x") v) ∧
      ZeroOverZero Ratio.functions nameLikeRootScope "x" (reciprocal nameLikeRoot)) ∧
    (FoldsExactly Ratio Ratio.functions ∧ Named (reciprocal largePowers) ∧
      (∃ v, HasValue Ratio.functions (.single "y" (-1 : ℚ))
        ((reciprocal largePowers).derivative "x") v) ∧
      ZeroOverZero Ratio.functions (.single "y" (-1 : ℚ)) "x" (reciprocal largePowers)) ∧
    (Named (reciprocal smallMagnitude) ∧
      ((reciprocal smallMagnitude).derivative "x").DegreesBounded absolute .empty .polynomial ∧
      (∃ v, HasValue absolute .empty ((reciprocal smallMagnitude).derivative "x") v) ∧
      ZeroOverZero absolute .empty "x" (reciprocal smallMagnitude)) :=
  ⟨⟨zeroOverZero_rootOfZero.2.2.simplify_derivative_ne, Ratio.foldsExactly,
      zeroOverZero_rootOfZero⟩,
    ⟨Ratio.foldsExactly, zeroOverZero_nameLikeRoot⟩,
    ⟨Ratio.foldsExactly, zeroOverZero_largePowers⟩,
    zeroOverZero_smallMagnitude⟩

end Reckoner.Expr
