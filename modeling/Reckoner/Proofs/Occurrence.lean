/-
**No operation introduces a symbol.**

Every variable of a simplified, expanded or rationalized expression and of a derivative occurs in
the expression itself.  As in `Reckoner/Proofs/Symbols.lean` this is proved for any property of
names.  Evaluation fails only at a symbol without a value, so that having a value is such a
property, and the results of all operations have values wherever the expression has one.

In particular the higher derivatives of an equation have values at zero where the first one has.
The solver has a case for a second derivative without a value and another one for such a third
derivative, and neither is ever taken: it is the solver that reports every missing value.

Main definitions:

* `Reckoner.Expr.TermsOnlyNames`, `Reckoner.Expr.Fraction.OnlyNames` — all variables of a list of
  terms, or of a fraction, have a property;
* `Reckoner.Scope.Defines` — a symbol has a value;
* `Reckoner.Expr.strictTaylorCoefficients` — the Taylor coefficients, where every derivative
  without a value is a failure.

Main results:

* `Reckoner.Expr.onlyNames_expand`, `Reckoner.Expr.onlyNames_rationalize`,
  `Reckoner.Expr.onlyNames_derivative` — the operations introduce no symbol;
* `Reckoner.Expr.eval_isOk_iff` — an expression has a value if and only if its symbols have;
* `Reckoner.Expr.no_new_symbols` — **no operation introduces a symbol**, and the solver never
  passes over a missing value.
-/

import Reckoner.Equation.Solve
import Reckoner.Expr.Fraction
import Reckoner.Proofs.Ratio
import Reckoner.Proofs.Symbols

set_option autoImplicit false

namespace Reckoner

namespace Expr

variable {κ : Type} {P : String → Prop} {a b e : Expr κ} {es fs : List (Expr κ)}

/-! ### Lists of terms -/

/-- All variables of a list of terms have a property. -/
def TermsOnlyNames (P : String → Prop) (es : List (Expr κ)) : Prop := ∀ e ∈ es, OnlyNames P e

@[simp] theorem termsOnlyNames_singleton : TermsOnlyNames P [e] ↔ OnlyNames P e := by
  simp [TermsOnlyNames]

@[simp] theorem termsOnlyNames_cons :
    TermsOnlyNames P (e :: es) ↔ OnlyNames P e ∧ TermsOnlyNames P es :=
  List.forall_mem_cons

@[simp] theorem termsOnlyNames_append :
    TermsOnlyNames P (es ++ fs) ↔ TermsOnlyNames P es ∧ TermsOnlyNames P fs :=
  List.forall_mem_append

theorem TermsOnlyNames.map {F : Expr κ → Expr κ} (hF : ∀ e, OnlyNames P e → OnlyNames P (F e))
    (h : TermsOnlyNames P es) : TermsOnlyNames P (es.map F) :=
  List.forall_mem_map.2 fun e he => hF e (h e he)

theorem TermsOnlyNames.crossProduct (hes : TermsOnlyNames P es) (hfs : TermsOnlyNames P fs) :
    TermsOnlyNames P (crossProduct es fs) :=
  forall_mem_crossProduct fun a ha b hb => onlyNames_mul.2 ⟨hes a ha, hfs b hb⟩

variable [Number κ]

theorem TermsOnlyNames.sumOf (h : TermsOnlyNames P es) : OnlyNames P (sumOf es) :=
  sumOf_induction (onlyNames_ofInt 0) (fun _ => id) (fun _ _ ha ht => onlyNames_add.2 ⟨ha, ht⟩) h

theorem TermsOnlyNames.collect (h : TermsOnlyNames P es) : OnlyNames P (collect es) :=
  onlyNames_simplify h.sumOf

/-! ### Expansion -/

/-- A splitting into terms under which all names keep a property. -/
def SplitsNames (P : String → Prop) (again : Expr κ → List (Expr κ)) : Prop :=
  ∀ e, OnlyNames P e → TermsOnlyNames P (again e)

variable {again : Expr κ → List (Expr κ)}

theorem TermsOnlyNames.powerTerms (hagain : SplitsNames P again) (h : TermsOnlyNames P es)
    (n : ℕ) : TermsOnlyNames P (powerTerms again es n) := by
  induction n with
  | zero => exact termsOnlyNames_singleton.2 (onlyNames_const _)
  | succ n ih => exact hagain _ (ih.crossProduct h).collect

theorem splitsNames_expandedTermsWith (hagain : SplitsNames P again) :
    SplitsNames P (expandedTermsWith again) := by
  intro e h
  induction e with
  | var x => exact termsOnlyNames_singleton.2 h
  | const c => exact termsOnlyNames_singleton.2 h
  | add a b iha ihb =>
      rw [onlyNames_add] at h
      exact termsOnlyNames_append.2 ⟨iha h.1, ihb h.2⟩
  | sub a b iha ihb =>
      rw [onlyNames_sub] at h
      exact termsOnlyNames_append.2 ⟨iha h.1, (ihb h.2).map fun _ => onlyNames_negated.2⟩
  | mul a b iha ihb =>
      rw [onlyNames_mul] at h
      exact (iha h.1).crossProduct (ihb h.2)
  | div a b iha ihb =>
      rw [onlyNames_div] at h
      exact (iha h.1).map fun _ he => onlyNames_div.2 ⟨he, (ihb h.2).collect⟩
  | pow a b iha ihb =>
      rw [onlyNames_pow] at h
      unfold expandedTermsWith
      dsimp only
      split
      · split
        · exact termsOnlyNames_singleton.2 (onlyNames_pow.2 ⟨(iha h.1).collect, h.2⟩)
        · exact (iha h.1).powerTerms hagain _
      · exact termsOnlyNames_singleton.2 (onlyNames_pow.2 ⟨(iha h.1).collect, (ihb h.2).collect⟩)
  | apply f a ih =>
      rw [onlyNames_apply] at h
      exact termsOnlyNames_singleton.2 (onlyNames_apply.2 (ih h).collect)

theorem splitsNames_expandedTermsWithin (n : ℕ) :
    SplitsNames P (expandedTermsWithin (κ := κ) n) := by
  induction n with
  | zero => exact splitsNames_expandedTermsWith fun _ => termsOnlyNames_singleton.2
  | succ n ih => exact splitsNames_expandedTermsWith ih

/-- **Expansion introduces no symbol.** -/
theorem onlyNames_expand (h : OnlyNames P e) : OnlyNames P e.expand :=
  (splitsNames_expandedTermsWithin (e.reach + 1) e h).collect

/-! ### Single fractions -/

theorem onlyNames_times (ha : OnlyNames P a) (hb : OnlyNames P b) : OnlyNames P (a.times b) := by
  unfold times
  split
  · exact hb
  · split
    · exact ha
    · exact onlyNames_mul.2 ⟨ha, hb⟩

theorem onlyNames_toPower {c : κ} (h : OnlyNames P e) : OnlyNames P (e.toPower c) := by
  unfold toPower
  split
  · exact h
  · exact onlyNames_pow.2 ⟨h, onlyNames_const c⟩

namespace Fraction

variable {p q : Fraction κ}

/-- All variables of a fraction have a property. -/
structure OnlyNames (P : String → Prop) (p : Fraction κ) : Prop where
  /-- Those of the numerator have it. -/
  num : Expr.OnlyNames P p.num
  /-- Those of the denominator have it. -/
  den : Expr.OnlyNames P p.den

theorem OnlyNames.whole (h : Expr.OnlyNames P e) : OnlyNames P (whole e) :=
  ⟨h, onlyNames_const _⟩

theorem OnlyNames.join {op : Expr κ → Expr κ → Expr κ}
    (hop : ∀ {a b}, Expr.OnlyNames P a ∧ Expr.OnlyNames P b → Expr.OnlyNames P (op a b))
    (hp : OnlyNames P p) (hq : OnlyNames P q) : OnlyNames P (join op p q) := by
  unfold Fraction.join
  split
  · exact ⟨hop ⟨hp.num, hq.num⟩, hp.den⟩
  · exact ⟨hop ⟨onlyNames_times hp.num hq.den, onlyNames_times hq.num hp.den⟩,
      onlyNames_times hp.den hq.den⟩

theorem OnlyNames.mul (hp : OnlyNames P p) (hq : OnlyNames P q) : OnlyNames P (p.mul q) :=
  ⟨onlyNames_times hp.num hq.num, onlyNames_times hp.den hq.den⟩

theorem OnlyNames.div (hp : OnlyNames P p) (hq : OnlyNames P q) : OnlyNames P (p.div q) :=
  ⟨onlyNames_times hp.num hq.den, onlyNames_times hp.den hq.num⟩

theorem OnlyNames.pow {c : κ} (hp : OnlyNames P p) : OnlyNames P (p.pow c) := by
  unfold Fraction.pow
  split
  · exact ⟨onlyNames_toPower hp.den, onlyNames_toPower hp.num⟩
  · exact ⟨onlyNames_toPower hp.num, onlyNames_toPower hp.den⟩

end Fraction

theorem onlyNames_toFraction (h : OnlyNames P e) : e.toFraction.OnlyNames P := by
  induction e with
  | var | const | apply => exact .whole h
  | add a b iha ihb =>
      rw [onlyNames_add] at h
      exact (iha h.1).join onlyNames_add.2 (ihb h.2)
  | sub a b iha ihb =>
      rw [onlyNames_sub] at h
      exact (iha h.1).join onlyNames_sub.2 (ihb h.2)
  | mul a b iha ihb =>
      rw [onlyNames_mul] at h
      exact (iha h.1).mul (ihb h.2)
  | div a b iha ihb =>
      rw [onlyNames_div] at h
      exact (iha h.1).div (ihb h.2)
  | pow a b iha _ =>
      cases b with
      | const k =>
          unfold toFraction
          split
          · exact (iha (onlyNames_pow.1 h).1).pow
          · exact .whole h
      | _ => exact .whole h

/-- **Writing an expression as a single fraction introduces no symbol.** -/
theorem onlyNames_rationalize (h : OnlyNames P e) : OnlyNames P e.rationalize := by
  have hp := onlyNames_toFraction (onlyNames_simplify h)
  have num := onlyNames_expand hp.num
  have den := onlyNames_expand hp.den
  unfold rationalize
  dsimp only
  split
  · split
    · exact num
    · split
      · exact onlyNames_div.2 ⟨num, onlyNames_const _⟩
      · exact onlyNames_expand (onlyNames_div.2 ⟨num, onlyNames_const _⟩)
  · exact onlyNames_div.2 ⟨num, den⟩

/-! ### Derivatives -/

theorem onlyNames_slope (f : Elementary) (ha : OnlyNames P a) (hb : OnlyNames P b) :
    OnlyNames P (f.slope a b) := by
  cases f <;> simp [Elementary.slope, ha, hb]

/-- **Differentiation introduces no symbol.** -/
theorem onlyNames_derivative (x : String) (h : OnlyNames P e) : OnlyNames P (e.derivative x) := by
  induction e with
  | var y =>
      unfold derivative
      split
      · exact onlyNames_ofInt 1
      · exact onlyNames_ofInt 0
  | const c => exact onlyNames_ofInt 0
  | add a b iha ihb | sub a b iha ihb | mul a b iha ihb | div a b iha ihb =>
      simp only [onlyNames_add, onlyNames_sub, onlyNames_mul, onlyNames_div] at h
      simp [derivative, h, iha h.1, ihb h.2]
  | pow a b iha ihb =>
      rw [onlyNames_pow] at h
      unfold derivative
      split
      · simp [h, iha h.1]
      · split
        · simp [h, ihb h.2]
        · simp [h, iha h.1, ihb h.2]
  | apply f a ih =>
      rw [onlyNames_apply] at h
      exact onlyNames_slope f h (ih h)

theorem onlyNames_simplifiedDerivative (x : String) (h : OnlyNames P e) :
    OnlyNames P (e.simplifiedDerivative x) :=
  onlyNames_simplify (onlyNames_derivative x h)

end Expr

/-! ### Values -/

section Values

variable {κ : Type} [Number κ]

/-- A symbol has a value. -/
def Scope.Defines (scope : Scope κ) (x : String) : Prop := ∃ v, scope.lookup x = .ok v

namespace Expr

variable {scope : Scope κ} {e : Expr κ}

/-- **An expression has a value if and only if its symbols have.** -/
theorem eval_isOk_iff : (∃ v, e.eval scope = .ok v) ↔ OnlyNames scope.Defines e := by
  induction e with
  | var x => exact (onlyNames_var (P := scope.Defines)).symm
  | const c => simp [eval, onlyNames_const]
  | add a b iha ihb | sub a b iha ihb | mul a b iha ihb | div a b iha ihb | pow a b iha ihb =>
      simp only [onlyNames_add, onlyNames_sub, onlyNames_mul, onlyNames_div, onlyNames_pow,
        ← iha, ← ihb, eval]
      cases a.eval scope <;> cases b.eval scope <;> simp [bind, Except.bind, pure, Except.pure]
  | apply f a ih =>
      rw [onlyNames_apply, ← ih, eval]
      cases a.eval scope <;> simp [bind, Except.bind, pure, Except.pure]

/-- A value is a value of the request. -/
theorem value_of_eval {v : κ} (h : e.eval scope = .ok v) : e.value scope = .ok v := by
  rw [value, h]
  rfl

/-! ### Equations -/

open Arithmetic (isFinite less tolerance zero)

/-- The Taylor coefficients at `x = 0` of an expression that is a polynomial of degree two at most
in `x`, where every derivative without a value is a failure. -/
def strictTaylorCoefficients (x : String) (e : Expr κ) :
    Except Failure (TaylorCoefficients κ) := do
  let atZero : Scope κ := Scope.single x zero
  let c ← e.value atZero
  if !isFinite c then throw .undefinedAtZero
  let first := e.simplifiedDerivative x
  let b ← first.value atZero
  if !isFinite b then throw .transcendental
  let second := first.simplifiedDerivative x
  let a ← second.value atZero
  if !isFinite a then throw .transcendental
  let d ← (second.simplifiedDerivative x).value atZero
  if !isFinite d then throw .transcendental
  if less tolerance (Roots.magnitude d) then throw .degreeTooHigh
  return ⟨a, b, c⟩

/-- A further derivative has a value where an expression has one. -/
theorem exists_eval_simplifiedDerivative (x : String) (h : ∃ v, e.eval scope = .ok v) :
    ∃ v, (e.simplifiedDerivative x).eval scope = .ok v :=
  eval_isOk_iff.2 (onlyNames_simplifiedDerivative x (eval_isOk_iff.1 h))

/-- The solver never passes over a missing value. -/
theorem taylorCoefficients_eq_strict (x : String) (e : Expr κ) :
    e.taylorCoefficients x = e.strictTaylorCoefficients x := by
  cases he : e.value (Scope.single x zero) with
  | error failure =>
      simp only [taylorCoefficients, strictTaylorCoefficients, he]
      rfl
  | ok c =>
      cases hb : (e.simplifiedDerivative x).eval (Scope.single x zero) with
      | error failure =>
          have hb : (e.simplifiedDerivative x).value (Scope.single x zero) =
              .error (.evaluation failure) := by
            rw [value, hb]
            rfl
          simp only [taylorCoefficients, strictTaylorCoefficients, he, hb]
          rfl
      | ok b =>
          obtain ⟨a, ha⟩ := exists_eval_simplifiedDerivative x ⟨b, hb⟩
          obtain ⟨d, hd⟩ := exists_eval_simplifiedDerivative x ⟨a, ha⟩
          simp only [taylorCoefficients, strictTaylorCoefficients, he, value_of_eval hb,
            value_of_eval ha, value_of_eval hd, checkThird, bind, Except.bind]
          cases isFinite c <;> cases isFinite b <;> cases isFinite a <;> cases isFinite d <;>
            cases less tolerance (Roots.magnitude d) <;> rfl

/-- **No operation introduces a symbol.**  Every variable of a result occurs in the expression, and
the result has a value wherever the expression has one.  Where the first derivative of an equation
has a value at zero the second and the third have one too, and the solver reports every derivative
without a value. -/
theorem no_new_symbols (e : Expr κ) (x : String) :
    (∀ r ∈ [e.simplify, e.expand, e.rationalize, e.derivative x],
      (∀ y, r.mentions y = true → e.mentions y = true) ∧
        ∀ (scope : Scope κ) (v : κ), e.eval scope = .ok v → ∃ w, r.eval scope = .ok w) ∧
    (∀ b, (e.simplifiedDerivative x).eval (Scope.single x zero) = .ok b →
      (∃ a, ((e.simplifiedDerivative x).simplifiedDerivative x).eval
        (Scope.single x zero) = .ok a) ∧
      ∃ d, (((e.simplifiedDerivative x).simplifiedDerivative x).simplifiedDerivative x).eval
        (Scope.single x zero) = .ok d) ∧
    ∀ text, equationCoefficients (κ := κ) text x =
      (parseExpr (zeroForm text)).bind fun f => f.simplify.strictTaylorCoefficients x := by
  have names : ∀ r ∈ [e.simplify, e.expand, e.rationalize, e.derivative x],
      ∀ P, OnlyNames P e → OnlyNames P r := by
    intro r hr P h
    simp only [List.mem_cons, List.not_mem_nil, or_false] at hr
    rcases hr with rfl | rfl | rfl | rfl
    · exact onlyNames_simplify h
    · exact onlyNames_expand h
    · exact onlyNames_rationalize h
    · exact onlyNames_derivative x h
  refine ⟨fun r hr => ⟨names r hr _ fun _ hy => hy, ?_⟩, ?_, ?_⟩
  · intro scope v hv
    exact eval_isOk_iff.2 (names r hr _ (eval_isOk_iff.1 ⟨v, hv⟩))
  · intro b hb
    have second := exists_eval_simplifiedDerivative x ⟨b, hb⟩
    exact ⟨second, exists_eval_simplifiedDerivative x second⟩
  · intro text
    simp only [equationCoefficients, taylorCoefficients_eq_strict, bind]

/-- The product of a sum, whose symbols have values, with itself has a value when it is multiplied
out. -/
theorem no_new_symbols_squareOfSum :
    let sum : Expr Ratio := .add (.var "x") (.var "pi")
    (∃ v, (Expr.mul sum sum).eval (Scope.single "x" zero) = .ok v) ∧
      (∃ w, (Expr.mul sum sum).expand.eval (Scope.single "x" zero) = .ok w) ∧
      ∃ d, ((((Expr.var "x" : Expr Ratio).simplifiedDerivative "x").simplifiedDerivative
        "x").simplifiedDerivative "x").eval (Scope.single "x" zero) = .ok d := by
  intro sum
  exact ⟨⟨_, rfl⟩, ((no_new_symbols (.mul sum sum) "x").1 _ (by simp)).2 _ _ rfl,
    ((no_new_symbols (.var "x") "x").2.1 _ rfl).2⟩

end Expr

end Values

end Reckoner
