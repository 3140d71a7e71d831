/-
**The derivative is what dual numbers give.**

A dual number `a + b ε` with `ε ^ 2 = 0` carries a value and a rate of change.  When the variable
is `a + ε` and every other symbol is constant, the operations of an expression lead to a dual
number again, whose part in `ε` is the derivative of the expression by the variable.

Here exponents need not be integers.  What is needed of powers and of the elementary functions is
collected in `Reckoner.Calculus`: they are partial, integer powers are those of the field, a power
is lowered by one by dividing it by its base, and only positive numbers have a logarithm.

The rules for powers are chosen by the occurrence of the variable, which says less than the part in
`ε`: a variable may occur and cancel.  The rules agree because what does not mention the variable is
constant, and because where a logarithm is defined the base is not zero.

Main definitions:

* `Reckoner.Calculus` — elementary functions and powers;
* `Reckoner.Calculus.slope?` — the derivatives of the elementary functions;
* `Reckoner.Expr.value?` — the value of an expression;
* `Reckoner.Expr.dual?` — its value on dual numbers;
* `Reckoner.Expr.Differentiates` — that value consists of the value and the value of the derivative;
* `Reckoner.Calculus.real` — the functions and powers of the real numbers.

Main results:

* `Reckoner.Calculus.dualPower?_intCast` — integer powers are those of dual-number arithmetic;
* `Reckoner.Expr.HasValue.value?_eq` — values of exact arithmetic are values here;
* `Reckoner.Expr.dual?_of_not_mentions` — what does not mention the variable is constant;
* `Reckoner.Expr.dual?_derivative` — **the part in `ε` of an expression is the value of its
  derivative**.
-/

import Mathlib.Algebra.DualNumber
import Mathlib.Analysis.SpecialFunctions.Log.Base
import Mathlib.Analysis.SpecialFunctions.Pow.Real
import Mathlib.Analysis.SpecialFunctions.Trigonometric.Inverse
import Mathlib.Analysis.SpecialFunctions.Trigonometric.Arctan
import Mathlib.Tactic
import Reckoner.Expr.Derivative
import Reckoner.Proofs.Meaning
import Reckoner.Proofs.Ratio

set_option autoImplicit false

namespace Reckoner

open TrivSqZeroExt (inl inr)

/-! ### Functions and powers -/

/-- Elementary functions and powers in a field, where they are defined. -/
structure Calculus (K : Type) [Field K] [LinearOrder K] where
  /-- The elementary functions. -/
  function : Functions K
  /-- The power of a base. -/
  power : K → K → Option K
  /-- Integer powers are those of the field, and zero has no negative one. -/
  power_intCast (a : K) (n : ℤ) : power a n = if a ≠ 0 ∨ 0 ≤ n then some (a ^ n) else none
  /-- A power is lowered by one by dividing it by its base. -/
  power_sub_one {a c p : K} : a ≠ 0 → power a c = some p →
    ∃ s, power a (c - 1) = some s ∧ s * a = p
  /-- Only positive numbers have a logarithm. -/
  pos_of_ln {a l : K} : function .ln a = some l → 0 < a

namespace Calculus

variable {K : Type} [Field K] [LinearOrder K] (A : Calculus K)

/-- A quotient, if the divisor is not zero. -/
def quotient? (u v : K) : Option K := if v = 0 then none else some (u / v)

@[simp] theorem quotient?_eq_some_iff {u v w : K} :
    quotient? u v = some w ↔ v ≠ 0 ∧ u / v = w := by
  simp [quotient?]

/-- The derivative of an elementary function at `a`.  The natural logarithm of ten is a
parameter. -/
def slope? (ln10 : K) (f : Elementary) (a : K) : Option K :=
  match f with
  | .exp => A.function .exp a
  | .ln => quotient? 1 a
  | .log10 => quotient? 1 (a * ln10)
  | .sqrt => (A.function .sqrt a).bind fun r => quotient? 1 (2 * r)
  | .abs => (A.function .abs a).bind fun m => quotient? a m
  | .sin => A.function .cos a
  | .cos => (A.function .sin a).map fun s => -s
  | .tan => (A.function .cos a).bind fun c => quotient? 1 (c ^ 2)
  | .cot => (A.function .sin a).bind fun s => quotient? (-1) (s ^ 2)
  | .arcsin => (A.function .sqrt (1 - a ^ 2)).bind fun r => quotient? 1 r
  | .arccos => (A.function .sqrt (1 - a ^ 2)).bind fun r => quotient? (-1) r
  | .arctan => quotient? 1 (1 + a ^ 2)
  | .arccot => quotient? (-1) (1 + a ^ 2)

/-- An elementary function of a dual number: `f a + f' a * b ε`.  A function of a constant is
constant, also where the function has no derivative. -/
def dualFunction? (ln10 : K) (f : Elementary) (u : DualNumber K) : Option (DualNumber K) :=
  (A.function f u.fst).bind fun v =>
    if u.snd = 0 then some (inl v)
    else (A.slope? ln10 f u.fst).map fun s => inl v + inr (s * u.snd)

/-- A power of dual numbers with the base `a + b ε` and the exponent `c + d ε`.  Its part in `ε` is
`c * a ^ (c - 1) * b` when `d` is zero, and `a ^ c * (d * ln a + c * b / a)` otherwise.  A product
with a factor zero is zero, also where `a ^ (c - 1)` is not defined. -/
def dualPower? (u v : DualNumber K) : Option (DualNumber K) :=
  (A.power u.fst v.fst).bind fun p =>
    if v.snd = 0 then
      if v.fst = 0 ∨ u.snd = 0 then some (inl p)
      else (A.power u.fst (v.fst - 1)).map fun s => inl p + inr (v.fst * s * u.snd)
    else
      (A.function .ln u.fst).map fun l =>
        inl p + inr (p * (v.snd * l + v.fst * u.snd / u.fst))

/-- The integer powers of dual-number arithmetic. -/
def integerPower (u : DualNumber K) : ℤ → DualNumber K
  | .ofNat n => u ^ n
  | .negSucc n => u⁻¹ ^ (n + 1)

variable {A} {u v z : DualNumber K} {a b c p : K}

omit [LinearOrder K] in
theorem fst_integerPower (u : DualNumber K) (n : ℤ) : (integerPower u n).fst = u.fst ^ n := by
  cases n with
  | ofNat n => simp [integerPower]
  | negSucc n => simp [integerPower, zpow_negSucc]

omit [LinearOrder K] in
/-- The part in `ε` of an integer power. -/
theorem snd_integerPower (u : DualNumber K) (n : ℤ) (h : u.fst ≠ 0 ∨ 0 ≤ n) :
    (integerPower u n).snd = n * u.fst ^ (n - 1) * u.snd := by
  cases n with
  | ofNat n =>
      cases n with
      | zero => simp [integerPower]
      | succ n => simp [integerPower, TrivSqZeroExt.snd_pow, mul_assoc]
  | negSucc n =>
      have ha : u.fst ≠ 0 := h.resolve_right (by omega)
      have hexp : u.fst ^ (Int.negSucc n - 1) = (u.fst ^ (n + 2))⁻¹ := by
        rw [show Int.negSucc n - 1 = Int.negSucc (n + 1) from rfl, zpow_negSucc]
      simp only [integerPower, TrivSqZeroExt.snd_pow, hexp]
      simp
      field_simp
      ring

/-- A power with a constant exponent whose predecessor is defined. -/
theorem dualPower?_of_pred {s : K} (hp : A.power a c = some p) (hs : A.power a (c - 1) = some s) :
    A.dualPower? (inl a + inr b) (inl c) = some (inl p + inr (c * s * b)) := by
  simp only [dualPower?, TrivSqZeroExt.fst_add, TrivSqZeroExt.fst_inl, TrivSqZeroExt.fst_inr,
    TrivSqZeroExt.snd_add, TrivSqZeroExt.snd_inl, TrivSqZeroExt.snd_inr, add_zero, zero_add, hp, hs]
  by_cases h : c = 0 ∨ b = 0
  · rcases h with rfl | rfl <;> simp
  · simp [h]

/-- A power with a base that has a logarithm. -/
theorem dualPower?_of_ln {d l : K} (hp : A.power a c = some p) (hl : A.function .ln a = some l) :
    A.dualPower? (inl a + inr b) (inl c + inr d) =
      some (inl p + inr (p * (d * l + c * b / a))) := by
  have ha : a ≠ 0 := (A.pos_of_ln hl).ne'
  by_cases hd : d = 0
  · -- the exponent is constant, and the power is lowered by dividing it by the base
    obtain ⟨s, hs, rfl⟩ := A.power_sub_one ha hp
    subst hd
    rw [TrivSqZeroExt.inr_zero, add_zero, dualPower?_of_pred hp hs]
    congr 3
    field_simp
    ring
  · simp [dualPower?, hp, hd, hl]

/-- **Integer powers are those of dual-number arithmetic.** -/
theorem dualPower?_intCast (u : DualNumber K) (n : ℤ) (h : u.fst ≠ 0 ∨ 0 ≤ n) :
    A.dualPower? u (inl (n : K)) = some (integerPower u n) := by
  have hpower : A.power u.fst n = some (u.fst ^ n) := by rw [A.power_intCast, if_pos h]
  have hsnd := snd_integerPower u n h
  by_cases hzero : (n : K) = 0 ∨ u.snd = 0
  · have hpart : (integerPower u n).snd = 0 := by
      rcases hzero with hn | hb
      · rw [hsnd, hn, zero_mul, zero_mul]
      · rw [hsnd, hb, mul_zero]
    have hleft : A.dualPower? u (inl (n : K)) = some (inl (u.fst ^ n)) := by
      simp [dualPower?, hpower, hzero]
    rw [hleft]
    congr 1
    ext
    · simp [fst_integerPower]
    · simp [hpart]
  · obtain ⟨hn, -⟩ := not_or.1 hzero
    have hpred : A.power u.fst ((n : K) - 1) = some (u.fst ^ (n - 1)) := by
      have hdefined : u.fst ≠ 0 ∨ 0 ≤ n - 1 := by
        have hne : n ≠ 0 := fun h0 => hn (by rw [h0, Int.cast_zero])
        exact h.imp_right fun hle => by omega
      have := A.power_intCast u.fst (n - 1)
      rwa [if_pos hdefined, Int.cast_sub, Int.cast_one] at this
    have hleft : A.dualPower? u (inl (n : K)) =
        some (inl (u.fst ^ n) + inr (n * u.fst ^ (n - 1) * u.snd)) := by
      simp [dualPower?, hpower, hzero, hpred]
    rw [hleft]
    congr 1
    ext
    · simp [fst_integerPower]
    · simp [hsnd]

end Calculus

/-! ### Values -/

namespace Expr

variable {κ : Type} [Number κ] {K : Type} [Field K] [LinearOrder K]

/-- The value of an expression under a scope, with powers of any exponents. -/
def value? (A : Calculus K) (σ : Scope K) : Expr κ → Option K
  | .var x => σ x
  | .const c => some (valueIn K c)
  | .add a b => Option.map₂ (· + ·) (a.value? A σ) (b.value? A σ)
  | .sub a b => Option.map₂ (· - ·) (a.value? A σ) (b.value? A σ)
  | .mul a b => Option.map₂ (· * ·) (a.value? A σ) (b.value? A σ)
  | .div a b => (a.value? A σ).bind fun u => (b.value? A σ).bind fun v => Calculus.quotient? u v
  | .pow a b => (a.value? A σ).bind fun u => (b.value? A σ).bind fun v => A.power u v
  | .apply f a => (a.value? A σ).bind fun u => A.function f u

/-- The value of an expression on dual numbers, with `x` as the variable and every other symbol
constant. -/
def dual? (A : Calculus K) (x : String) (σ : Scope K) : Expr κ → Option (DualNumber K)
  | .var y => (σ y).map fun v => if y = x then inl v + DualNumber.eps else inl v
  | .const c => some (inl (valueIn K c))
  | .add a b => Option.map₂ (· + ·) (a.dual? A x σ) (b.dual? A x σ)
  | .sub a b => Option.map₂ (· - ·) (a.dual? A x σ) (b.dual? A x σ)
  | .mul a b => Option.map₂ (· * ·) (a.dual? A x σ) (b.dual? A x σ)
  | .div a b => (a.dual? A x σ).bind fun u => (b.dual? A x σ).bind fun v =>
      if v.fst = 0 then none else some (u * v⁻¹)
  | .pow a b => (a.dual? A x σ).bind fun u => (b.dual? A x σ).bind fun v => A.dualPower? u v
  | .apply f a => (a.dual? A x σ).bind fun u =>
      A.dualFunction? (valueIn K (Arithmetic.ln10 : κ)) f u

variable {A : Calculus K} {x : String} {σ : Scope K} {a b e : Expr κ} {f : Elementary} {u v w : K}

/-! ### Values by constructor -/

section Constructors

attribute [local simp] value? Option.map₂_eq_some_iff Option.bind_eq_some_iff

@[simp] theorem value?_const_iff {c : κ} :
    (Expr.const c).value? A σ = some w ↔ valueIn K c = w := by
  simp

@[simp] theorem value?_ofInt_iff [ExactNumber κ] {n : ℤ} :
    (Expr.ofInt n : Expr κ).value? A σ = some w ↔ (n : K) = w := by
  simp [Expr.ofInt]

@[simp] theorem value?_add_iff : (Expr.add a b).value? A σ = some w ↔
    ∃ u, a.value? A σ = some u ∧ ∃ v, b.value? A σ = some v ∧ u + v = w := by
  simp

@[simp] theorem value?_sub_iff : (Expr.sub a b).value? A σ = some w ↔
    ∃ u, a.value? A σ = some u ∧ ∃ v, b.value? A σ = some v ∧ u - v = w := by
  simp

@[simp] theorem value?_mul_iff : (Expr.mul a b).value? A σ = some w ↔
    ∃ u, a.value? A σ = some u ∧ ∃ v, b.value? A σ = some v ∧ u * v = w := by
  simp

@[simp] theorem value?_div_iff : (Expr.div a b).value? A σ = some w ↔
    ∃ u, a.value? A σ = some u ∧ ∃ v, b.value? A σ = some v ∧ v ≠ 0 ∧ u / v = w := by
  simp

@[simp] theorem value?_pow_iff : (Expr.pow a b).value? A σ = some w ↔
    ∃ u, a.value? A σ = some u ∧ ∃ v, b.value? A σ = some v ∧ A.power u v = some w := by
  simp

@[simp] theorem value?_apply_iff : (Expr.apply f a).value? A σ = some w ↔
    ∃ u, a.value? A σ = some u ∧ A.function f u = some w := by
  simp

end Constructors

/-- With integer exponents, these are the values of exact arithmetic. -/
theorem HasValue.value?_eq (h : HasValue A.function σ e v) : e.value? A σ = some v := by
  induction h with
  | var hx => exact hx
  | const c => rfl
  | add _ _ iha ihb => exact value?_add_iff.2 ⟨_, iha, _, ihb, rfl⟩
  | sub _ _ iha ihb => exact value?_sub_iff.2 ⟨_, iha, _, ihb, rfl⟩
  | mul _ _ iha ihb => exact value?_mul_iff.2 ⟨_, iha, _, ihb, rfl⟩
  | div _ _ hne iha ihb => exact value?_div_iff.2 ⟨_, iha, _, ihb, hne, rfl⟩
  | pow _ _ hne iha ihb =>
      exact value?_pow_iff.2 ⟨_, iha, _, ihb, by rw [A.power_intCast, if_pos hne]⟩
  | apply _ hf ih => exact value?_apply_iff.2 ⟨_, ih, hf⟩

/-! ### Constants -/

/-- **What does not mention the variable is constant.** -/
theorem dual?_of_not_mentions (hx : e.mentions x = false) (hv : e.value? A σ = some v) :
    e.dual? A x σ = some (inl v) := by
  induction e generalizing v with
  | var y =>
      have hne : y ≠ x := by simpa [mentions] using hx
      rw [value?] at hv
      simp [dual?, hv, hne]
  | const c =>
      rw [value?_const_iff] at hv
      rw [dual?, hv]
  | add a b iha ihb =>
      obtain ⟨ha, hb⟩ := by simpa [mentions] using hx
      obtain ⟨u, hu, t, ht, rfl⟩ := value?_add_iff.1 hv
      simp [dual?, iha ha hu, ihb hb ht]
  | sub a b iha ihb =>
      obtain ⟨ha, hb⟩ := by simpa [mentions] using hx
      obtain ⟨u, hu, t, ht, rfl⟩ := value?_sub_iff.1 hv
      simp [dual?, iha ha hu, ihb hb ht]
  | mul a b iha ihb =>
      obtain ⟨ha, hb⟩ := by simpa [mentions] using hx
      obtain ⟨u, hu, t, ht, rfl⟩ := value?_mul_iff.1 hv
      simp [dual?, iha ha hu, ihb hb ht]
  | div a b iha ihb =>
      obtain ⟨ha, hb⟩ := by simpa [mentions] using hx
      obtain ⟨u, hu, t, ht, hne, rfl⟩ := value?_div_iff.1 hv
      simp [dual?, iha ha hu, ihb hb ht, hne, div_eq_mul_inv, TrivSqZeroExt.inv_inl]
  | pow a b iha ihb =>
      obtain ⟨ha, hb⟩ := by simpa [mentions] using hx
      obtain ⟨u, hu, t, ht, hp⟩ := value?_pow_iff.1 hv
      simp [dual?, iha ha hu, ihb hb ht, Calculus.dualPower?, hp]
  | apply f a ih =>
      obtain ⟨u, hu, hf⟩ := value?_apply_iff.1 hv
      simp [dual?, ih hx hu, Calculus.dualFunction?, hf]

/-! ### The rules -/

variable [ExactNumber κ]

/-- The value of a square. -/
theorem value?_square_iff :
    (Expr.pow a (ofInt 2)).value? A σ = some w ↔ ∃ u, a.value? A σ = some u ∧ u ^ 2 = w := by
  have square (u : K) : A.power u ((2 : ℤ) : K) = some (u ^ 2) := by
    rw [A.power_intCast, if_pos (.inr (by decide)), zpow_ofNat]
  simp only [value?_pow_iff, value?_ofInt_iff]
  constructor
  · rintro ⟨u, hu, c, rfl, hp⟩
    rw [square] at hp
    exact ⟨u, hu, Option.some.inj hp⟩
  · rintro ⟨u, hu, rfl⟩
    exact ⟨u, hu, _, rfl, square u⟩

theorem value?_negated_iff : (negated a).value? A σ = some w ↔
    ∃ u, a.value? A σ = some u ∧ -u = w := by
  simp [negated]

/-- **The rule for an elementary function is the chain rule.** -/
theorem value?_slope {da : Expr κ} (hu : a.value? A σ = some u)
    (hw : (f.slope a da).value? A σ = some w) :
    ∃ s t, A.slope? (valueIn K (Arithmetic.ln10 : κ)) f u = some s ∧ da.value? A σ = some t ∧
      s * t = w := by
  cases f
  all_goals
    -- the value of the rule, as a statement about the values of the argument and its derivative
    simp only [Elementary.slope, value?_mul_iff, value?_div_iff, value?_sub_iff, value?_add_iff,
      value?_apply_iff, value?_negated_iff, value?_square_iff, value?_ofInt_iff, value?_const_iff,
      Int.cast_one, Int.cast_neg, Int.cast_ofNat, hu, Option.some.injEq, exists_eq_left'] at hw
  case exp =>
      obtain ⟨s, hs, t, ht, rfl⟩ := hw
      exact ⟨s, t, hs, ht, rfl⟩
  case ln =>
      obtain ⟨t, ht, hne, rfl⟩ := hw
      exact ⟨1 / u, t, Calculus.quotient?_eq_some_iff.2 ⟨hne, rfl⟩, ht, by ring⟩
  case log10 =>
      obtain ⟨t, ht, hne, rfl⟩ := hw
      exact ⟨_, t, Calculus.quotient?_eq_some_iff.2 ⟨hne, rfl⟩, ht, by ring⟩
  case sqrt =>
      obtain ⟨t, ht, _, ⟨r, hr, rfl⟩, hne, rfl⟩ := hw
      refine ⟨1 / (2 * r), t, ?_, ht, by ring⟩
      rw [Calculus.slope?, hr]
      exact Calculus.quotient?_eq_some_iff.2 ⟨hne, rfl⟩
  case abs =>
      obtain ⟨_, ⟨m, hm, hne, rfl⟩, t, ht, rfl⟩ := hw
      refine ⟨u / m, t, ?_, ht, rfl⟩
      rw [Calculus.slope?, hm]
      exact Calculus.quotient?_eq_some_iff.2 ⟨hne, rfl⟩
  case sin =>
      obtain ⟨s, hs, t, ht, rfl⟩ := hw
      exact ⟨s, t, hs, ht, rfl⟩
  case cos =>
      obtain ⟨_, ⟨s, hs, rfl⟩, t, ht, rfl⟩ := hw
      exact ⟨-s, t, by rw [Calculus.slope?, hs]; rfl, ht, rfl⟩
  case tan =>
      obtain ⟨_, ⟨_, ⟨c, hc, rfl⟩, hne, rfl⟩, t, ht, rfl⟩ := hw
      refine ⟨1 / c ^ 2, t, ?_, ht, rfl⟩
      rw [Calculus.slope?, hc]
      exact Calculus.quotient?_eq_some_iff.2 ⟨hne, rfl⟩
  case cot =>
      obtain ⟨_, ⟨_, ⟨s, hs, rfl⟩, hne, rfl⟩, t, ht, rfl⟩ := hw
      refine ⟨-1 / s ^ 2, t, ?_, ht, rfl⟩
      rw [Calculus.slope?, hs]
      exact Calculus.quotient?_eq_some_iff.2 ⟨hne, rfl⟩
  case arcsin =>
      obtain ⟨t, ht, r, hr, hne, rfl⟩ := hw
      refine ⟨1 / r, t, ?_, ht, by ring⟩
      rw [Calculus.slope?, hr]
      exact Calculus.quotient?_eq_some_iff.2 ⟨hne, rfl⟩
  case arccos =>
      obtain ⟨_, ⟨t, ht, rfl⟩, r, hr, hne, rfl⟩ := hw
      refine ⟨-1 / r, t, ?_, ht, by ring⟩
      rw [Calculus.slope?, hr]
      exact Calculus.quotient?_eq_some_iff.2 ⟨hne, rfl⟩
  case arctan =>
      obtain ⟨t, ht, hne, rfl⟩ := hw
      exact ⟨_, t, Calculus.quotient?_eq_some_iff.2 ⟨hne, rfl⟩, ht, by ring⟩
  case arccot =>
      obtain ⟨_, ⟨t, ht, rfl⟩, hne, rfl⟩ := hw
      exact ⟨_, t, Calculus.quotient?_eq_some_iff.2 ⟨hne, rfl⟩, ht, by ring⟩

/-! ### The derivative -/

/-- The value on dual numbers, where there are a value and a derivative, consists of the two. -/
def Differentiates (A : Calculus K) (x : String) (σ : Scope K) (e : Expr κ) : Prop :=
  ∀ ⦃v w⦄, e.value? A σ = some v → (e.derivative x).value? A σ = some w →
    e.dual? A x σ = some (inl v + inr w)

namespace Differentiates

theorem var (y : String) : (Expr.var y : Expr κ).Differentiates A x σ := by
  intro v w hv hw
  rw [value?] at hv
  rw [dual?, hv, Option.map_some]
  by_cases hy : y = x
  · rw [derivative, if_pos hy, value?_ofInt_iff] at hw
    rw [if_pos hy, ← hw, Int.cast_one]
    rfl
  · rw [derivative, if_neg hy, value?_ofInt_iff] at hw
    rw [if_neg hy, ← hw, Int.cast_zero, TrivSqZeroExt.inr_zero, add_zero]

theorem const (c : κ) : (Expr.const c).Differentiates A x σ := by
  intro v w hv hw
  rw [derivative, value?_ofInt_iff] at hw
  rw [value?_const_iff] at hv
  rw [dual?, hv, ← hw, Int.cast_zero, TrivSqZeroExt.inr_zero, add_zero]

variable (ha : a.Differentiates A x σ) (hb : b.Differentiates A x σ)

include ha hb

omit [ExactNumber κ] in
theorem add : (Expr.add a b).Differentiates A x σ := by
  intro v w hv hw
  obtain ⟨u, hu, t, ht, rfl⟩ := value?_add_iff.1 hv
  obtain ⟨u', hu', t', ht', rfl⟩ := value?_add_iff.1 hw
  rw [dual?, ha hu hu', hb ht ht', Option.map₂_some_some]
  congr 1
  ext <;> simp

omit [ExactNumber κ] in
theorem sub : (Expr.sub a b).Differentiates A x σ := by
  intro v w hv hw
  obtain ⟨u, hu, t, ht, rfl⟩ := value?_sub_iff.1 hv
  obtain ⟨u', hu', t', ht', rfl⟩ := value?_sub_iff.1 hw
  rw [dual?, ha hu hu', hb ht ht', Option.map₂_some_some]
  congr 1
  ext <;> simp

omit [ExactNumber κ] in
theorem mul : (Expr.mul a b).Differentiates A x σ := by
  intro v w hv hw
  obtain ⟨u, hu, t, ht, rfl⟩ := value?_mul_iff.1 hv
  simp only [derivative, value?_add_iff, value?_mul_iff, hu, ht, Option.some.injEq,
    exists_eq_left'] at hw
  obtain ⟨_, ⟨u', hu', rfl⟩, _, ⟨t', ht', rfl⟩, rfl⟩ := hw
  rw [dual?, ha hu hu', hb ht ht', Option.map₂_some_some]
  congr 1
  ext <;> simp
  ring

theorem div : (Expr.div a b).Differentiates A x σ := by
  intro v w hv hw
  obtain ⟨u, hu, t, ht, hne, rfl⟩ := value?_div_iff.1 hv
  simp only [derivative, value?_div_iff, value?_sub_iff, value?_mul_iff, value?_square_iff,
    hu, ht, Option.some.injEq, exists_eq_left'] at hw
  obtain ⟨_, ⟨_, ⟨u', hu', rfl⟩, _, ⟨t', ht', rfl⟩, rfl⟩, -, rfl⟩ := hw
  simp only [dual?, ha hu hu', hb ht ht', Option.bind_some]
  rw [if_neg (by simpa using hne)]
  congr 1
  ext
  · simp [div_eq_mul_inv]
  · simp
    field_simp
    ring

/-- The three rules for powers. -/
theorem pow : (Expr.pow a b).Differentiates A x σ := by
  intro v w hv hw
  obtain ⟨u, hu, c, hc, hp⟩ := value?_pow_iff.1 hv
  rw [derivative] at hw
  rcases hexponent : b.mentions x with _ | _
  · -- the exponent is constant
    simp only [hexponent, Bool.not_false, if_true, value?_mul_iff, value?_pow_iff, value?_sub_iff,
      value?_ofInt_iff, Int.cast_one, hu, hc, Option.some.injEq, exists_eq_left'] at hw
    obtain ⟨_, ⟨s, hs, rfl⟩, t, ht, rfl⟩ := hw
    rw [dual?, ha hu ht, dual?_of_not_mentions hexponent hc]
    exact Calculus.dualPower?_of_pred hp hs
  rcases hbase : a.mentions x with _ | _
  · -- the base is constant
    simp only [hexponent, hbase, Bool.not_true, Bool.not_false, Bool.false_eq_true, if_false,
      if_true, value?_mul_iff, value?_apply_iff, hv, hu, Option.some.injEq, exists_eq_left'] at hw
    obtain ⟨_, ⟨l, hl, rfl⟩, d, hd, rfl⟩ := hw
    have hconstant : a.dual? A x σ = some (inl u + inr 0) := by
      rw [dual?_of_not_mentions hbase hu, TrivSqZeroExt.inr_zero, add_zero]
    rw [dual?, hconstant, hb hc hd]
    refine (Calculus.dualPower?_of_ln hp hl).trans ?_
    congr 3
    ring
  · simp only [hexponent, hbase, Bool.not_true, Bool.false_eq_true, if_false, value?_mul_iff,
      value?_add_iff, value?_div_iff, value?_apply_iff, hv, hu, hc, Option.some.injEq,
      exists_eq_left'] at hw
    obtain ⟨_, ⟨_, ⟨d, hd, l, hl, rfl⟩, _, ⟨_, ⟨t, ht, rfl⟩, -, rfl⟩, rfl⟩, rfl⟩ := hw
    rw [dual?, ha hu ht, hb hc hd]
    exact Calculus.dualPower?_of_ln hp hl

omit hb

theorem apply (f : Elementary) : (Expr.apply f a).Differentiates A x σ := by
  intro v w hv hw
  obtain ⟨u, hu, hf⟩ := value?_apply_iff.1 hv
  obtain ⟨s, t, hs, ht, rfl⟩ := value?_slope hu hw
  rw [dual?, ha hu ht, Option.bind_some]
  by_cases h0 : t = 0
  · simp [Calculus.dualFunction?, hf, h0]
  · simp [Calculus.dualFunction?, hf, h0, hs]

end Differentiates

theorem differentiates (e : Expr κ) : e.Differentiates A x σ := by
  induction e with
  | var y => exact .var y
  | const c => exact .const c
  | add a b iha ihb => exact .add iha ihb
  | sub a b iha ihb => exact .sub iha ihb
  | mul a b iha ihb => exact .mul iha ihb
  | div a b iha ihb => exact .div iha ihb
  | pow a b iha ihb => exact .pow iha ihb
  | apply f a ih => exact .apply ih f

/-- **The part in `ε` of an expression is the value of its derivative.** -/
theorem dual?_derivative (hv : e.value? A σ = some v) (hw : (e.derivative x).value? A σ = some w) :
    e.dual? A x σ = some (inl v + inr w) :=
  differentiates e hv hw

/-! ### The real numbers -/

end Expr

/-- The calculus of the real numbers.  Where an exponent is no integer, the base is positive. -/
noncomputable def Calculus.real : Calculus ℝ where
  function f a :=
    match f with
    | .exp => some (Real.exp a)
    | .ln => if 0 < a then some (Real.log a) else none
    | .log10 => if 0 < a then some (Real.logb 10 a) else none
    | .sqrt => if 0 ≤ a then some (Real.sqrt a) else none
    | .abs => some |a|
    | .sin => some (Real.sin a)
    | .cos => some (Real.cos a)
    | .tan => quotient? (Real.sin a) (Real.cos a)
    | .cot => quotient? (Real.cos a) (Real.sin a)
    | .arcsin => if |a| ≤ 1 then some (Real.arcsin a) else none
    | .arccos => if |a| ≤ 1 then some (Real.arccos a) else none
    | .arctan => some (Real.arctan a)
    | .arccot => (quotient? 1 a).map Real.arctan
  power a c :=
    if c = ⌊c⌋ then if a ≠ 0 ∨ 0 ≤ ⌊c⌋ then some (a ^ ⌊c⌋) else none
    else if 0 < a then some (a ^ c) else none
  power_intCast a n := by simp
  power_sub_one := by
    intro a c p ha hp
    have hfloor : ((⌊c - 1⌋ : ℤ) : ℝ) = ⌊c⌋ - 1 := by
      rw [Int.floor_sub_one, Int.cast_sub, Int.cast_one]
    by_cases hc : c = ⌊c⌋
    · rw [if_pos hc, if_pos (.inl ha)] at hp
      obtain rfl := Option.some.inj hp
      refine ⟨a ^ (⌊c⌋ - 1), ?_, by rw [zpow_sub_one₀ ha, inv_mul_cancel_right₀ ha]⟩
      rw [if_pos (by rw [hfloor, ← hc]), if_pos (.inl ha), Int.floor_sub_one]
    · rw [if_neg hc] at hp
      split at hp
      · rename_i hpos
        obtain rfl := Option.some.inj hp
        refine ⟨a ^ (c - 1), ?_, ?_⟩
        · rw [if_neg (by rw [hfloor, sub_left_inj]; exact hc), if_pos hpos]
        · rw [Real.rpow_sub_one ha, div_mul_cancel₀ _ ha]
      · simp at hp
  pos_of_ln := by
    intro a l h
    by_contra ha
    simp [ha] at h

namespace Expr

/-- At two, `x ^ x` is four with the rate of change `4 * (ln 2 + 1)`. -/
theorem dual?_derivative_selfPower :
    let e : Expr Ratio := .pow (.var "x") (.var "x")
    let σ : Scope ℝ := fun y => if y = "x" then some 2 else none
    let w : ℝ := 4 * (1 * Real.log 2 + 2 * 1 / 2)
    e.value? Calculus.real σ = some 4 ∧ (e.derivative "x").value? Calculus.real σ = some w ∧
      e.dual? Calculus.real "x" σ = some (inl 4 + inr w) := by
  intro e σ w
  have hpower : Calculus.real.power 2 2 = some 4 := by
    have := Calculus.real.power_intCast 2 2
    norm_num at this
    exact this
  have hln : Calculus.real.function .ln 2 = some (Real.log 2) := if_pos two_pos
  have hv : e.value? Calculus.real σ = some 4 := hpower
  have hw : (e.derivative "x").value? Calculus.real σ = some w := by
    have hone : value? Calculus.real σ (ofInt 1 : Expr Ratio) = some 1 := by simp
    simp [e, w, σ, derivative, mentions, value?, hpower, hln, hone, Calculus.quotient?]
  exact ⟨hv, hw, dual?_derivative hv hw⟩

end Expr

end Reckoner
