/-
**Expressions of polynomials.**

An expression is that of a polynomial in one variable when it is built from the variable, numbers
and named constants by sums, differences, products, division by numbers other than zero and powers
with natural numbers as exponents.  Division and exponents may be calculations with numbers, since
a derivative contains such.

Simplification leads from expressions of polynomials to expressions of polynomials in which no
exponent is zero, and differentiation leads back.  Where an exponent could be zero, the rule for
powers could produce zero to a negative power.

That the polynomial stays the same is no matter of form, and is not shown here: it follows from the
values that simplification keeps.

Main definitions:

* `Reckoner.Expr.IsNumber` — calculations with numbers, and their value;
* `Reckoner.Expr.PolynomialIn` — expressions of polynomials, and their polynomial;
* `Reckoner.Expr.KeepsPolynomials` — a transformation under which they stay such expressions.

Main results:

* `Reckoner.Expr.IsNumber.simplifyWith` — a calculation with numbers is simplified to its value;
* `Reckoner.Expr.PolynomialIn.simplify` — **simplification leaves no exponent zero**;
* `Reckoner.Expr.PolynomialIn.derivative` — **the derivative is an expression of the derivative**.
-/

import Mathlib.Algebra.Polynomial.Derivative
import Mathlib.Tactic
import Reckoner.Expr.Derivative
import Reckoner.Proofs.Degree
import Reckoner.Proofs.Families
import Reckoner.Proofs.Meaning

set_option autoImplicit false

namespace Reckoner

namespace Expr

open Arithmetic (isZero)
open Polynomial (C X)

variable {κ : Type} [Number κ]

/-! ### Calculations with numbers -/

/-- A calculation with numbers, and its value.  Exponents are positive. -/
inductive IsNumber : Expr κ → ℚ → Prop
  | const (c : κ) : IsNumber (.const c) (Number.value c)
  | add {a b : Expr κ} {r s : ℚ} : IsNumber a r → IsNumber b s → IsNumber (.add a b) (r + s)
  | sub {a b : Expr κ} {r s : ℚ} : IsNumber a r → IsNumber b s → IsNumber (.sub a b) (r - s)
  | mul {a b : Expr κ} {r s : ℚ} : IsNumber a r → IsNumber b s → IsNumber (.mul a b) (r * s)
  | pow {a b : Expr κ} {r : ℚ} {n : ℕ} : IsNumber a r → IsNumber b n → 0 < n →
      IsNumber (.pow a b) (r ^ n)

/-- An expression of a polynomial in `x`, and its polynomial.  All exponents are `least` at
least. -/
inductive PolynomialIn (least : ℕ) (x : String) : Expr κ → Polynomial ℚ → Prop
  | var : PolynomialIn least x (.var x) X
  | named {y : String} {c : κ} : y ≠ x → namedConstant? y = some c →
      PolynomialIn least x (.var y) (C (Number.value c))
  | const (c : κ) : PolynomialIn least x (.const c) (C (Number.value c))
  | add {a b : Expr κ} {p q : Polynomial ℚ} : PolynomialIn least x a p → PolynomialIn least x b q →
      PolynomialIn least x (.add a b) (p + q)
  | sub {a b : Expr κ} {p q : Polynomial ℚ} : PolynomialIn least x a p → PolynomialIn least x b q →
      PolynomialIn least x (.sub a b) (p - q)
  | mul {a b : Expr κ} {p q : Polynomial ℚ} : PolynomialIn least x a p → PolynomialIn least x b q →
      PolynomialIn least x (.mul a b) (p * q)
  | div {a b : Expr κ} {p : Polynomial ℚ} {r : ℚ} : PolynomialIn least x a p → IsNumber b r →
      r ≠ 0 → PolynomialIn least x (.div a b) (C r⁻¹ * p)
  | pow {a b : Expr κ} {p : Polynomial ℚ} {n : ℕ} : PolynomialIn least x a p → IsNumber b n →
      least ≤ n → PolynomialIn least x (.pow a b) (p ^ n)

variable {least : ℕ} {x : String} {a b e : Expr κ} {p : Polynomial ℚ} {r : ℚ}
variable {again : Expr κ → Expr κ}

/-- The values of the named constants, and a value for one variable. -/
def constantsAnd (κ : Type) [Number κ] (x : String) (t : ℚ) : Scope ℚ :=
  fun y => if y = x then some t else (namedConstant? (κ := κ) y).map Number.value

/-! ### Values -/

@[simp] theorem valueIn_rat (c : κ) : valueIn ℚ c = Number.value c := Rat.cast_id _

section Values

variable {K : Type} [Field K] [CharZero K] {I : Functions K} {σ : Scope K}

/-- A calculation with numbers has its value under every scope. -/
theorem IsNumber.hasValue (h : IsNumber b r) : HasValue I σ b (r : K) := by
  induction h with
  | const c => exact .const c
  | add _ _ iha ihb => exact Rat.cast_add (α := K) _ _ ▸ iha.add ihb
  | sub _ _ iha ihb => exact Rat.cast_sub (α := K) _ _ ▸ iha.sub ihb
  | mul _ _ iha ihb => exact Rat.cast_mul (α := K) _ _ ▸ iha.mul ihb
  | @pow a b r n _ _ _ iha ihb =>
      have := iha.pow (n := n) (by simpa using ihb) (.inr (Int.natCast_nonneg n))
      simpa using this

omit [Field K] [CharZero K] in
/-- An expression of a polynomial has the value of the polynomial. -/
theorem PolynomialIn.hasValue {I : Functions ℚ} (h : PolynomialIn least x e p) (t : ℚ) :
    HasValue I (constantsAnd κ x t) e (p.eval t) := by
  induction h with
  | var => exact .var (by simp [constantsAnd])
  | named hy hc => exact .var (by simp [constantsAnd, hy, hc])
  | const c => simpa using HasValue.const (I := I) (σ := constantsAnd κ x t) c
  | add _ _ iha ihb => simpa using iha.add ihb
  | sub _ _ iha ihb => simpa using iha.sub ihb
  | mul _ _ iha ihb => simpa using iha.mul ihb
  | div _ hb hr iha =>
      have := iha.div hb.hasValue (by exact_mod_cast hr)
      rw [div_eq_inv_mul] at this
      simpa using this
  | @pow a b p n _ hb _ iha =>
      have := iha.pow (n := n) (by simpa using hb.hasValue) (.inr (Int.natCast_nonneg n))
      simpa using this

end Values

theorem IsNumber.mentions (h : IsNumber b r) : b.mentions x = false := by
  induction h with
  | const c => rfl
  | add _ _ iha ihb | sub _ _ iha ihb | mul _ _ iha ihb => simp [Expr.mentions, iha, ihb]
  | pow _ _ _ iha ihb => simp [Expr.mentions, iha, ihb]

/-- A calculation with numbers is an expression of a constant polynomial. -/
theorem IsNumber.polynomialIn (hleast : least ≤ 1) (h : IsNumber b r) :
    PolynomialIn least x b (C r) := by
  induction h with
  | const c => exact .const c
  | add _ _ iha ihb => simpa using iha.add ihb
  | sub _ _ iha ihb => simpa using iha.sub ihb
  | mul _ _ iha ihb => simpa using iha.mul ihb
  | pow _ hb hn iha _ => simpa using iha.pow hb (by omega)

/-- Less may be demanded of exponents. -/
theorem PolynomialIn.relax (h : PolynomialIn least x e p) : PolynomialIn 0 x e p := by
  induction h with
  | var => exact .var
  | named hy hc => exact .named hy hc
  | const c => exact .const c
  | add _ _ iha ihb => exact .add iha ihb
  | sub _ _ iha ihb => exact .sub iha ihb
  | mul _ _ iha ihb => exact .mul iha ihb
  | div _ hb hr iha => exact .div iha hb hr
  | pow _ hb _ iha => exact .pow iha hb (Nat.zero_le _)

/-! ### Degrees

The exponents are numbers, so that the degrees do not depend on the scope. -/

section Degrees

variable {I J : Functions ℚ} {σ τ : Scope ℚ}

theorem IsNumber.exponentAt_eq {n : ℕ} (h : IsNumber b n) : exponentAt I σ b = n :=
  Expr.exponentAt_eq (by simpa using h.hasValue)

theorem IsNumber.degree_eq_zero (h : IsNumber b r) : b.degree I σ = 0 := by
  induction h with
  | const c => rfl
  | add _ _ iha ihb | sub _ _ iha ihb | mul _ _ iha ihb => simp [degree, iha, ihb]
  | pow _ _ _ iha ihb => simp [degree, iha, ihb]

theorem IsNumber.degreesBounded (h : IsNumber b r) : b.DegreesBounded I σ .polynomial := by
  have admits {b : Expr κ} {r : ℚ} {q : ℕ} (h : IsNumber b r) :
      Grading.polynomial.Admits (b.degree I σ) q := by
    rw [h.degree_eq_zero]
    exact Grading.polynomial.admits_zero.polynomial
  induction h with
  | const c =>
      rw [DegreesBounded]
      exact ⟨admits (.const c), trivial⟩
  | add ha hb iha ihb =>
      rw [DegreesBounded]
      exact ⟨admits (ha.add hb), iha, ihb⟩
  | sub ha hb iha ihb =>
      rw [DegreesBounded]
      exact ⟨admits (ha.sub hb), iha, ihb⟩
  | mul ha hb iha ihb =>
      rw [DegreesBounded]
      exact ⟨admits (ha.mul hb), iha, ihb⟩
  | pow ha hb hn iha ihb =>
      rw [DegreesBounded]
      exact ⟨admits (ha.pow hb hn), iha, ihb⟩

/-- The degree is the same under all scopes. -/
theorem PolynomialIn.degree_eq (h : PolynomialIn least x e p) :
    e.degree I σ = e.degree J τ := by
  induction h with
  | var | named | const => rfl
  | add _ _ iha ihb | sub _ _ iha ihb | mul _ _ iha ihb => simp [degree, iha, ihb]
  | div _ hb _ iha => simp [degree, iha, hb.degree_eq_zero]
  | pow _ hb _ iha => simp [degree, iha, hb.degree_eq_zero, hb.exponentAt_eq]

/-- Degrees that are bounded under one scope are so under all. -/
theorem PolynomialIn.degreesBounded (h : PolynomialIn least x e p)
    (bounded : e.DegreesBounded I σ .polynomial) : e.DegreesBounded J τ .polynomial := by
  have admits {e : Expr κ} {p : Polynomial ℚ} {q q' : ℕ} (h : PolynomialIn least x e p)
      (hd : Grading.polynomial.Admits (e.degree I σ) q) :
      Grading.polynomial.Admits (e.degree J τ) q' := by
    rw [h.degree_eq] at hd
    exact hd.polynomial
  induction h with
  | var | named | const =>
      rw [DegreesBounded] at bounded ⊢
      exact bounded
  | add ha hb iha ihb =>
      rw [DegreesBounded] at bounded ⊢
      exact ⟨admits (ha.add hb) bounded.1, iha bounded.2.1, ihb bounded.2.2⟩
  | sub ha hb iha ihb =>
      rw [DegreesBounded] at bounded ⊢
      exact ⟨admits (ha.sub hb) bounded.1, iha bounded.2.1, ihb bounded.2.2⟩
  | mul ha hb iha ihb =>
      rw [DegreesBounded] at bounded ⊢
      exact ⟨admits (ha.mul hb) bounded.1, iha bounded.2.1, ihb bounded.2.2⟩
  | div ha hb hr iha =>
      rw [DegreesBounded] at bounded ⊢
      exact ⟨admits (ha.div hb hr) bounded.1, iha bounded.2.1, hb.degreesBounded⟩
  | pow ha hb hn iha =>
      rw [DegreesBounded] at bounded ⊢
      exact ⟨admits (ha.pow hb hn) bounded.1, iha bounded.2.1, hb.degreesBounded⟩

end Degrees

/-! ### Derivatives -/

section Derivative

variable [ExactNumber κ]

theorem isNumber_ofInt (n : ℤ) : IsNumber (ofInt n : Expr κ) n := by
  have := IsNumber.const (Arithmetic.ofInt n : κ)
  rwa [ExactNumber.value_ofInt] at this

theorem polynomialIn_ofInt (n : ℤ) : PolynomialIn least x (ofInt n : Expr κ) (C (n : ℚ)) := by
  have := ExactNumber.value_ofInt (κ := κ) n
  exact this ▸ .const _

theorem polynomialIn_zero : PolynomialIn least x (ofInt 0 : Expr κ) 0 := by
  have : PolynomialIn least x (ofInt 0 : Expr κ) _ := polynomialIn_ofInt 0
  simpa using this

theorem IsNumber.predecessor {n : ℕ} (hb : IsNumber b n) (hn : 1 ≤ n) :
    IsNumber (.sub b (ofInt 1)) ((n - 1 : ℕ) : ℚ) := by
  have := hb.sub (isNumber_ofInt 1)
  rwa [Int.cast_one, ← Nat.cast_pred hn] at this

/-- The rule for powers, as an expression of a polynomial. -/
theorem PolynomialIn.powerRule {n : ℕ} {da : Expr κ} {q : Polynomial ℚ} (ha : PolynomialIn 0 x a p)
    (hb : IsNumber b n) (hn : 1 ≤ n) (hda : PolynomialIn 0 x da q) :
    PolynomialIn 0 x (.mul (.mul b (.pow a (.sub b (ofInt 1)))) da)
      (C (n : ℚ) * p ^ (n - 1) * q) :=
  .mul (.mul (hb.polynomialIn zero_le_one) (.pow ha (hb.predecessor hn) (Nat.zero_le _))) hda

/-- The derivative of a calculation with numbers is zero. -/
theorem IsNumber.derivative (h : IsNumber b r) : PolynomialIn 0 x (b.derivative x) 0 := by
  induction h with
  | const c => exact polynomialIn_zero
  | add _ _ iha ihb => simpa [Expr.derivative] using iha.add ihb
  | sub _ _ iha ihb => simpa [Expr.derivative] using iha.sub ihb
  | mul ha hb iha ihb =>
      have := (iha.mul (hb.polynomialIn zero_le_one)).add
        ((ha.polynomialIn zero_le_one).mul ihb)
      simpa [Expr.derivative] using this
  | pow ha hb hn iha _ =>
      have := (ha.polynomialIn zero_le_one).powerRule hb hn iha
      rw [mul_zero] at this
      rwa [Expr.derivative, hb.mentions]

/-- **The derivative is an expression of the derivative.** -/
theorem PolynomialIn.derivative (h : PolynomialIn 1 x e p) :
    PolynomialIn 0 x (e.derivative x) (Polynomial.derivative p) := by
  induction h with
  | var =>
      rw [Expr.derivative, if_pos rfl, Polynomial.derivative_X]
      simpa using polynomialIn_ofInt (κ := κ) 1
  | named hy _ =>
      rw [Expr.derivative, if_neg hy, Polynomial.derivative_C]
      exact polynomialIn_zero
  | const c =>
      rw [Polynomial.derivative_C]
      exact polynomialIn_zero
  | add _ _ iha ihb => simpa [Expr.derivative] using iha.add ihb
  | sub _ _ iha ihb => simpa [Expr.derivative] using iha.sub ihb
  | mul ha hb iha ihb =>
      rw [Polynomial.derivative_mul]
      exact (iha.mul hb.relax).add (ha.relax.mul ihb)
  | @div a b p r ha hb hr iha =>
      have hsquare : IsNumber (.pow b (ofInt 2)) (r ^ 2) :=
        hb.pow (by simpa using isNumber_ofInt (κ := κ) 2) two_pos
      have hnum := (iha.mul (hb.polynomialIn zero_le_one)).sub (hb.derivative.mul ha.relax)
      have hquot := hnum.div hsquare (pow_ne_zero 2 hr)
      have heq : C ((r ^ 2)⁻¹) * (p.derivative * C r - 0 * p) =
          (C r⁻¹ * p).derivative := by
        have hc : (r ^ 2)⁻¹ * r = r⁻¹ := by
          field_simp
        rw [Polynomial.derivative_C_mul, zero_mul, sub_zero, mul_comm _ (C r), ← mul_assoc,
          ← Polynomial.C_mul, hc]
      rwa [heq] at hquot
  | @pow a b p n ha hb hn iha =>
      rw [Expr.derivative, hb.mentions, Polynomial.derivative_pow]
      exact ha.relax.powerRule hb hn iha

end Derivative

/-! ### Simplification -/

section Simplification

/-- An expression of some polynomial, with positive exponents. -/
def HasPolynomial (x : String) (e : Expr κ) : Prop := ∃ p, PolynomialIn 1 x e p

/-- A calculation with numbers whose value is a positive integer. -/
def IsExponent (b : Expr κ) : Prop := ∃ n : ℕ, 0 < n ∧ IsNumber b n

/-- A transformation under which expressions of polynomials and calculations with numbers stay
such, and under which numbers keep their value. -/
structure KeepsPolynomials (x : String) (again : Expr κ → Expr κ) : Prop where
  /-- Expressions of polynomials stay such. -/
  polynomial {e : Expr κ} : HasPolynomial x e → HasPolynomial x (again e)
  /-- Calculations with numbers keep their value. -/
  number {b : Expr κ} {r : ℚ} : IsNumber b r → IsNumber (again b) r

theorem hasPolynomial_const (c : κ) : HasPolynomial x (.const c) := ⟨_, .const c⟩

theorem hasPolynomial_mul : HasPolynomial x (.mul a b) ↔ HasPolynomial x a ∧ HasPolynomial x b := by
  constructor
  · rintro ⟨_, h⟩
    cases h with
    | mul ha hb => exact ⟨⟨_, ha⟩, ⟨_, hb⟩⟩
  · rintro ⟨⟨_, ha⟩, ⟨_, hb⟩⟩
    exact ⟨_, ha.mul hb⟩

theorem hasPolynomial_add : HasPolynomial x (.add a b) ↔ HasPolynomial x a ∧ HasPolynomial x b := by
  constructor
  · rintro ⟨_, h⟩
    cases h with
    | add ha hb => exact ⟨⟨_, ha⟩, ⟨_, hb⟩⟩
  · rintro ⟨⟨_, ha⟩, ⟨_, hb⟩⟩
    exact ⟨_, ha.add hb⟩

theorem hasPolynomial_sub : HasPolynomial x (.sub a b) ↔ HasPolynomial x a ∧ HasPolynomial x b := by
  constructor
  · rintro ⟨_, h⟩
    cases h with
    | sub ha hb => exact ⟨⟨_, ha⟩, ⟨_, hb⟩⟩
  · rintro ⟨⟨_, ha⟩, ⟨_, hb⟩⟩
    exact ⟨_, ha.sub hb⟩

theorem hasPolynomial_pow : HasPolynomial x (.pow a b) ↔ HasPolynomial x a ∧ IsExponent b := by
  constructor
  · rintro ⟨_, h⟩
    cases h with
    | pow ha hb hn => exact ⟨⟨_, ha⟩, ⟨_, hn, hb⟩⟩
  · rintro ⟨⟨_, ha⟩, n, hn, hb⟩
    exact ⟨_, ha.pow hb hn⟩

theorem hasPolynomial_left_of_div (h : HasPolynomial x (.div a b)) : HasPolynomial x a := by
  obtain ⟨_, h⟩ := h
  cases h with
  | div ha _ _ => exact ⟨_, ha⟩

theorem isExponent_const {c : κ} {n : ℕ} (hn : 0 < n) (hc : Number.value c = n) :
    IsExponent (.const c) := ⟨n, hn, hc ▸ .const c⟩

/-- Exponents are added. -/
theorem IsExponent.add (hagain : KeepsPolynomials x again) (ha : IsExponent a)
    (hb : IsExponent b) : IsExponent (again (.add a b)) := by
  obtain ⟨m, hm, ha⟩ := ha
  obtain ⟨n, hn, hb⟩ := hb
  exact ⟨m + n, by omega, by simpa using hagain.number (ha.add hb)⟩

/-- Exponents are multiplied. -/
theorem IsExponent.mul (hagain : KeepsPolynomials x again) (ha : IsExponent a)
    (hb : IsExponent b) : IsExponent (again (.mul a b)) := by
  obtain ⟨m, hm, ha⟩ := ha
  obtain ⟨n, hn, hb⟩ := hb
  exact ⟨m * n, Nat.mul_pos hm hn, by simpa using hagain.number (ha.mul hb)⟩

theorem keepsPolynomials_id (x : String) : KeepsPolynomials (κ := κ) x id := ⟨id, id⟩

variable [ExactNumber κ]

/-- The expressions of polynomials are a family. -/
theorem hasPolynomial_family (x : String) : Family (κ := κ) (HasPolynomial x) IsExponent where
  const := hasPolynomial_const
  add := hasPolynomial_add
  sub := hasPolynomial_sub
  mul := hasPolynomial_mul
  pow := hasPolynomial_pow
  ofInt := by
    intro n hn
    have hvalue : ((n.toNat : ℕ) : ℚ) = n := by exact_mod_cast Int.toNat_of_nonneg hn.le
    exact ⟨n.toNat, by omega, hvalue ▸ isNumber_ofInt n⟩

/-- A rule leads from expressions of polynomials to such, if quotients are those by numbers. -/
theorem Rule.hasPolynomial (hagain : KeepsPolynomials x again) {e' : Expr κ} (r : Rule again e e')
    (divisor : ∀ a b, e = .div a b → b.isConst = true) (h : HasPolynomial x e) :
    HasPolynomial x e' := by
  have F := hasPolynomial_family (κ := κ) x
  cases r with
  | keep => exact h
  | collect he => exact F.collected? h he
  | foldAdd | foldSub | foldMul | foldDiv | foldPow => exact hasPolynomial_const _
  | subSelf | zeroMul | mulZero | zeroDiv | divSelf | powZero | onePow | foldApply =>
      exact hasPolynomial_const _
  | zeroAdd => exact (hasPolynomial_add.1 h).2
  | addZero => exact (hasPolynomial_add.1 h).1
  | subZero => exact (hasPolynomial_sub.1 h).1
  | zeroSub =>
      exact hagain.polynomial (hasPolynomial_mul.2
        ⟨hasPolynomial_const _, (hasPolynomial_sub.1 h).2⟩)
  | oneMul => exact (hasPolynomial_mul.1 h).2
  | mulOne => exact (hasPolynomial_mul.1 h).1
  | product => exact F.simplifyProduct (fun _ _ ha hb => ha.add hagain hb) h
  | divOne => exact hasPolynomial_left_of_div h
  | scale =>
      exact hagain.polynomial (hasPolynomial_mul.2
        ⟨hasPolynomial_const _, (hasPolynomial_mul.1 (hasPolynomial_left_of_div h)).2⟩)
  | divConst =>
      exact hagain.polynomial (hasPolynomial_mul.2
        ⟨hasPolynomial_const _, hasPolynomial_left_of_div h⟩)
  | @cancel a b hsame hbase =>
      -- the base of a number is a number, and numbers are not cancelled
      obtain ⟨c, rfl⟩ := exists_const_of_isConst (divisor a b rfl)
      rw [same_iff_eq.1 hsame] at hbase
      simp [Expr.baseAndExponent, isConst] at hbase
  | powOne => exact (hasPolynomial_pow.1 h).1
  | powPow =>
      obtain ⟨hpow, hc⟩ := hasPolynomial_pow.1 h
      obtain ⟨ha, hm⟩ := hasPolynomial_pow.1 hpow
      exact hagain.polynomial (hasPolynomial_pow.2 ⟨ha, hm.mul hagain hc⟩)

/-- A calculation with numbers is simplified to its value. -/
theorem IsNumber.simplifyWith (again : Expr κ → Expr κ) (h : IsNumber b r) :
    ∃ c, Expr.simplifyWith again b = .const c ∧ Number.value c = r := by
  induction h with
  | const c => exact ⟨c, rfl, rfl⟩
  | add _ _ iha ihb =>
      obtain ⟨⟨c, hc, rfl⟩, ⟨d, hd, rfl⟩⟩ := iha, ihb
      exact ⟨c + d, by rw [Expr.simplifyWith, hc, hd]; rfl, ExactNumber.value_add c d⟩
  | sub _ _ iha ihb =>
      obtain ⟨⟨c, hc, rfl⟩, ⟨d, hd, rfl⟩⟩ := iha, ihb
      exact ⟨c - d, by rw [Expr.simplifyWith, hc, hd]; rfl, ExactNumber.value_sub c d⟩
  | mul _ _ iha ihb =>
      obtain ⟨⟨c, hc, rfl⟩, ⟨d, hd, rfl⟩⟩ := iha, ihb
      exact ⟨c * d, by rw [Expr.simplifyWith, hc, hd]; rfl, ExactNumber.value_mul c d⟩
  | @pow a b r n _ _ _ iha ihb =>
      obtain ⟨⟨c, hc, rfl⟩, ⟨d, hd, hn⟩⟩ := iha, ihb
      have hvalue := ExactNumber.value_pow c d n (by simpa using hn) (.inr (Int.natCast_nonneg n))
      exact ⟨Arithmetic.pow c d, by rw [Expr.simplifyWith, hc, hd]; rfl, by simpa using hvalue⟩

/-- **One pass leaves no exponent zero.** -/
theorem PolynomialIn.simplifyWith (hagain : KeepsPolynomials x again)
    (h : PolynomialIn 0 x e p) : HasPolynomial x (Expr.simplifyWith again e) := by
  induction h with
  | var => exact ⟨_, .var⟩
  | named hy hc => exact ⟨_, .named hy hc⟩
  | const c => exact ⟨_, .const c⟩
  | add _ _ iha ihb =>
      exact (simplifyAdd_rule _ _).hasPolynomial hagain (by simp) (hasPolynomial_add.2 ⟨iha, ihb⟩)
  | sub _ _ iha ihb =>
      exact (simplifySub_rule _ _).hasPolynomial hagain (by simp) (hasPolynomial_sub.2 ⟨iha, ihb⟩)
  | mul _ _ iha ihb =>
      exact (simplifyMul_rule _ _).hasPolynomial hagain (by simp) (hasPolynomial_mul.2 ⟨iha, ihb⟩)
  | div _ hb hr iha =>
      obtain ⟨c, hc, rfl⟩ := hb.simplifyWith again
      obtain ⟨_, ha⟩ := iha
      rw [Expr.simplifyWith, hc]
      refine (simplifyDiv_rule _ _).hasPolynomial hagain ?_ ⟨_, ha.div (.const c) hr⟩
      rintro _ _ ⟨⟩
      rfl
  | @pow a b p n _ hb _ iha =>
      obtain ⟨c, hc, hn⟩ := hb.simplifyWith again
      rw [Expr.simplifyWith, hc]
      rcases Nat.eq_zero_or_pos n with rfl | hpos
      · -- an exponent zero is dropped
        have hz : (Expr.const c).isZeroConst = true :=
          (isZero_iff (K := ℚ)).2 (by simp [hn])
        unfold simplifyPow
        split
        · exact hasPolynomial_const _
        · rw [if_pos hz]
          exact hasPolynomial_const _
      · exact (simplifyPow_rule _ _).hasPolynomial hagain (by simp)
          (hasPolynomial_pow.2 ⟨iha, isExponent_const hpos hn⟩)

/-- One pass keeps expressions of polynomials, if `again` does. -/
theorem KeepsPolynomials.simplifyWith (hagain : KeepsPolynomials x again) :
    KeepsPolynomials x (Expr.simplifyWith again) := by
  constructor
  · rintro e ⟨p, h⟩
    exact h.relax.simplifyWith hagain
  · intro b r h
    obtain ⟨c, hc, rfl⟩ := h.simplifyWith again
    exact hc ▸ .const c

theorem keepsPolynomials_simplifyWithin (n : ℕ) :
    KeepsPolynomials (κ := κ) x (simplifyWithin n) := by
  induction n with
  | zero => exact (keepsPolynomials_id x).simplifyWith
  | succ n ih => exact ih.simplifyWith

/-- **Simplification leaves no exponent zero.** -/
theorem PolynomialIn.simplify (h : PolynomialIn 0 x e p) : HasPolynomial x e.simplify := by
  unfold Expr.simplify
  cases e.weight with
  | zero => exact h.simplifyWith (keepsPolynomials_id x)
  | succ n => exact h.simplifyWith (keepsPolynomials_simplifyWithin n)

end Simplification

end Expr

end Reckoner
