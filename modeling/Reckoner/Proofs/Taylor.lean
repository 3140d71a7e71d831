/-
**Equations are solved by their Taylor coefficients.**

For an expression of a polynomial the coefficients that are read off at zero are those of the
polynomial, whatever the expression looks like.  The expression is simplified and differentiated in
turn.  Through all these steps it stays an expression of a polynomial, of the same or the derived
polynomial, and its degree does not grow, so that simplification keeps its values.  At zero all of
them have a value: a power with exponent zero is simplified before it is differentiated.

Main definitions:

* `Reckoner.Expr.DegreeAtMost` — an expression has a value under a scope, and its degree is bounded;
* `Reckoner.Expr.Presents` — an expression of a polynomial whose degree is bounded.

Main results:

* `Reckoner.Notation.parse_named` — the names in an expression that is read are identifiers;
* `Reckoner.Expr.Presents.simplifiedDerivative` — **the simplified derivative presents the
  derivative**;
* `Reckoner.Expr.Presents.taylorCoefficients` — the coefficients at zero are those of the
  polynomial;
* `Reckoner.solve_polynomial` — **an equation of a polynomial is solved from its coefficients**, or
  fails for its degree.
-/

import Reckoner.Equation.Solve
import Reckoner.Proofs.Polynomial
import Reckoner.Proofs.Precedence
import Reckoner.Proofs.SimplifyValue

set_option autoImplicit false

namespace Reckoner

/-! ### The names in a text -/

namespace Notation

open Expr (Named onlyNames_var onlyNames_const onlyNames_add onlyNames_sub onlyNames_mul
  onlyNames_div onlyNames_pow onlyNames_apply onlyNames_negated)

variable {κ : Type} [Number κ] {cs : List Char} {e : Expr κ}

theorem isIdentifier_of_atomShape (h : atomShape cs = .identifier) : isIdentifier cs = true := by
  have call : callShape? cs ≠ some .identifier := by
    unfold callShape?
    split <;> [split; skip] <;> simp
  unfold atomShape at h
  split at h
  · simp at h
  · simp at h
  · split at h
    · simp at h
    · split at h
      · exact absurd (h ▸ ‹_›) call
      · split at h
        · simp at h
        · split at h
          · assumption
          · simp at h

/-- A text with the shape of a name is an identifier. -/
theorem isIdentifier_of_shape (h : shape cs = .identifier) : isIdentifier cs = true := by
  have factor : factorShape? cs ≠ some .identifier := by
    unfold factorShape?
    dsimp only
    split
    · split
      · split
        · split <;> simp
        · simp
      · split <;> simp
    · simp
  unfold shape at h
  split at h
  · simp at h
  · split at h
    · simp at h
    · split at h
      · simp at h
      · split at h
        · split at h <;> simp at h
        · cases hf : factorShape? cs with
          | none => exact isIdentifier_of_atomShape (by simpa [hf] using h)
          | some s => exact absurd (by simpa [hf] using h) (hf ▸ factor)

/-- Two parts that are read and joined. -/
theorem exists_of_joined {l r : List Char} {join : Expr κ → Expr κ → Expr κ}
    (h : (do return join (← parse l) (← parse r) : Except ParseError (Expr κ)) = .ok e) :
    ∃ a b, parse l = .ok a ∧ parse r = .ok b ∧ join a b = e := by
  cases hl : (parse l : Except ParseError (Expr κ)) with
  | error reason => simp [hl, bind, Except.bind] at h
  | ok a =>
      cases hr : (parse r : Except ParseError (Expr κ)) with
      | error reason => simp [hl, hr, bind, Except.bind] at h
      | ok b =>
          exact ⟨a, b, rfl, rfl, by simpa [hl, hr, bind, Except.bind, pure, Except.pure] using h⟩

theorem named_minus (h : Named e) : Named (minus e) := by
  unfold minus
  split
  · exact onlyNames_const _
  · exact onlyNames_negated.2 h

/-- **The names in an expression that is read are identifiers.** -/
theorem parse_named (h : parse cs = .ok e) : Named e := by
  -- by induction on the length of the text, whose parts are shorter
  induction hn : cs.length using Nat.strong_induction_on generalizing cs e with
  | _ n ih =>
      have part : ∀ p ∈ (shape (Text.trim cs)).parts, ∀ a : Expr κ, parse p = .ok a → Named a := by
        intro p hp a ha
        have := length_lt_of_mem_parts hp
        have := Text.length_trim_le cs
        exact ih p.length (by omega) ha rfl
      rw [parse_eq] at h
      cases hs : shape (Text.trim cs) <;> simp only [hs, readShape] at h part
      case empty | unbalanced | other => simp at h
      case enclosed t | positive t => exact part t (by simp [Shape.parts]) e h
      case sum l r | difference l r | product l r | quotient l r | power l r =>
          obtain ⟨a, b, ha, hb, rfl⟩ := exists_of_joined h
          have ha := part l (by simp [Shape.parts]) a ha
          have hb := part r (by simp [Shape.parts]) b hb
          simp [Named, ha, hb]
      case negative t =>
          cases ht : (parse t : Except ParseError (Expr κ)) with
          | error reason => simp [ht, bind, Except.bind] at h
          | ok a =>
              obtain rfl : minus a = e := by
                simpa [ht, bind, Except.bind, pure, Except.pure] using h
              exact named_minus (part t (by simp [Shape.parts]) a ht)
      case call name t =>
          cases ht : (parse t : Except ParseError (Expr κ)) with
          | error reason => simp [ht, bind, Except.bind] at h
          | ok a =>
              have ha := part t (by simp [Shape.parts]) a ht
              simp only [ht, bind, Except.bind, parseCall] at h
              split at h
              · obtain rfl := Except.ok.inj h
                exact onlyNames_apply.2 ha
              · simp at h
      case numeral =>
          unfold parseNumeral at h
          split at h
          · obtain rfl := Except.ok.inj h
            exact onlyNames_const _
          · simp at h
      case identifier =>
          obtain rfl := Except.ok.inj h
          refine onlyNames_var.2 ?_
          rw [Expr.IsName, String.toList_ofList]
          exact isIdentifier_of_shape hs

end Notation

namespace Expr

open Polynomial (C X)

variable {κ : Type} [Number κ]

/-! ### Degrees of derivatives -/

section Degrees

variable {K : Type} [Field K] {I : Functions K} {σ : Scope K}
variable {a b e : Expr κ} {i j d : ℕ} {r : ℚ} {x : String} {p : Polynomial ℚ}

/-- An expression has a value under a scope, its names are identifiers, and its degree is at most
`d` and below the bound. -/
def DegreeAtMost (I : Functions K) (σ : Scope K) (d : ℕ) (e : Expr κ) : Prop :=
  ∃ v q, Graded 0 I σ .polynomial e v d q

theorem DegreeAtMost.lt (h : DegreeAtMost I σ d e) : d < degreeBound := by
  obtain ⟨_, _, h⟩ := h
  exact h.admits

theorem DegreeAtMost.mono (h : DegreeAtMost I σ i e) (hi : i ≤ d) (hd : d < degreeBound) :
    DegreeAtMost I σ d e := by
  obtain ⟨v, q, h⟩ := h
  exact ⟨v, q, h.mono hi le_rfl hd⟩

theorem DegreeAtMost.const (c : κ) (hd : d < degreeBound) : DegreeAtMost I σ d (.const c) :=
  ⟨_, 0, .const c hd⟩

theorem DegreeAtMost.add (ha : DegreeAtMost I σ i a) (hb : DegreeAtMost I σ j b) :
    DegreeAtMost I σ (max i j) (.add a b) := by
  have hd := max_lt ha.lt hb.lt
  obtain ⟨u, k, ha⟩ := ha
  obtain ⟨v, l, hb⟩ := hb
  exact ⟨u + v, k + l, ha.add hb le_rfl le_rfl (Nat.zero_le _) hd⟩

theorem DegreeAtMost.sub (ha : DegreeAtMost I σ i a) (hb : DegreeAtMost I σ j b) :
    DegreeAtMost I σ (max i j) (.sub a b) := by
  have hd := max_lt ha.lt hb.lt
  obtain ⟨u, k, ha⟩ := ha
  obtain ⟨v, l, hb⟩ := hb
  exact ⟨u - v, k + l, ha.sub hb le_rfl le_rfl (Nat.zero_le _) hd⟩

theorem DegreeAtMost.mul (ha : DegreeAtMost I σ i a) (hb : DegreeAtMost I σ j b)
    (hd : i + j < degreeBound) : DegreeAtMost I σ (i + j) (.mul a b) := by
  obtain ⟨u, k, ha⟩ := ha
  obtain ⟨v, l, hb⟩ := hb
  exact ⟨u * v, k + l, ha.mul hb le_rfl le_rfl (Nat.zero_le _) hd⟩

variable [CharZero K]

/-- A calculation with numbers has degree zero. -/
theorem IsNumber.graded (h : IsNumber b r) : ∃ q, Graded 0 I σ .polynomial b (r : K) 0 q := by
  have hd : Grading.polynomial.Admits 0 0 := Grading.polynomial.admits_zero
  induction h with
  | const c => exact ⟨0, .const c hd⟩
  | add _ _ iha ihb =>
      obtain ⟨⟨k, ha⟩, ⟨l, hb⟩⟩ := iha, ihb
      exact ⟨k + l, Rat.cast_add (α := K) _ _ ▸ ha.add hb le_rfl le_rfl le_rfl hd⟩
  | sub _ _ iha ihb =>
      obtain ⟨⟨k, ha⟩, ⟨l, hb⟩⟩ := iha, ihb
      exact ⟨k + l, Rat.cast_sub (α := K) _ _ ▸ ha.sub hb le_rfl le_rfl le_rfl hd⟩
  | mul _ _ iha ihb =>
      obtain ⟨⟨k, ha⟩, ⟨l, hb⟩⟩ := iha, ihb
      exact ⟨k + l, Rat.cast_mul (α := K) _ _ ▸ ha.mul hb le_rfl le_rfl le_rfl hd⟩
  | @pow a b r n _ _ _ iha ihb =>
      obtain ⟨⟨k, ha⟩, ⟨l, hb⟩⟩ := iha, ihb
      have hb : Graded 0 I σ .polynomial b ((n : ℤ) : K) 0 l := by simpa using hb
      have := ha.pow hb (.inr (Int.natCast_nonneg n)) (Nat.le_refl _) (Nat.le_refl _) le_rfl
        (Nat.zero_le _) hd
      exact ⟨_, by simpa using this⟩

theorem IsNumber.degreeAtMost (h : IsNumber b r) : DegreeAtMost I σ 0 b := ⟨_, h.graded⟩

theorem DegreeAtMost.divNumber (ha : DegreeAtMost I σ d a) (hb : IsNumber b r) (hr : r ≠ 0) :
    DegreeAtMost I σ d (.div a b) := by
  have hd := ha.lt
  obtain ⟨u, k, ha⟩ := ha
  obtain ⟨l, hb⟩ := hb.graded (I := I) (σ := σ)
  exact ⟨_, _, ha.div hb (by exact_mod_cast hr) (Nat.le_refl _) (Nat.le_refl _) (Nat.zero_le _) hd⟩

theorem DegreeAtMost.powNumber {n : ℕ} (ha : DegreeAtMost I σ i a) (hb : IsNumber b n)
    (hd : n * i < degreeBound) : DegreeAtMost I σ (n * i) (.pow a b) := by
  obtain ⟨u, k, ha⟩ := ha
  obtain ⟨l, hb⟩ := hb.graded (I := I) (σ := σ)
  have hb : Graded 0 I σ .polynomial b ((n : ℤ) : K) 0 l := by simpa using hb
  exact ⟨_, _, ha.pow hb (.inr (Int.natCast_nonneg n)) (by simp) (by simp) le_rfl (Nat.zero_le _)
    hd⟩

variable [ExactNumber κ]

/-- The rule for powers lowers the degree by that of the base and raises it by that of the
derivative of the base. -/
theorem DegreeAtMost.powerRule {n : ℕ} {da : Expr κ} (ha : DegreeAtMost I σ i a)
    (hb : IsNumber b n) (hn : 1 ≤ n) (hda : DegreeAtMost I σ i da) (hd : n * i < degreeBound) :
    DegreeAtMost I σ (n * i) (.mul (.mul b (.pow a (.sub b (ofInt 1)))) da) := by
  obtain ⟨m, rfl⟩ := Nat.exists_eq_add_of_le' hn
  have hsum : 0 + m * i + i = (m + 1) * i := by ring
  have hpow := ha.powNumber (hb.predecessor hn) (by rw [Nat.add_sub_cancel]; omega)
  rw [Nat.add_sub_cancel] at hpow
  exact hsum ▸ (hb.degreeAtMost.mul hpow (by omega)).mul hda (by omega)

/-- The derivative of a calculation with numbers has degree zero. -/
theorem IsNumber.degreeAtMost_derivative (h : IsNumber b r) :
    DegreeAtMost I σ 0 (b.derivative x) := by
  have hbound := Nat.zero_lt_of_lt one_lt_degreeBound
  induction h with
  | const c => exact .const _ hbound
  | add _ _ iha ihb => exact iha.add ihb
  | sub _ _ iha ihb => exact iha.sub ihb
  | mul ha hb iha ihb =>
      exact (iha.mul hb.degreeAtMost hbound).add (ha.degreeAtMost.mul ihb hbound)
  | pow ha hb hn iha _ =>
      rw [Expr.derivative, hb.mentions]
      exact ha.degreeAtMost.powerRule hb hn iha hbound

/-- **The derivative has at most the degree of the expression.** -/
theorem PolynomialIn.degreeAtMost_derivative {least : ℕ} (h : PolynomialIn 1 x e p) {v : K} {q : ℕ}
    (hg : Graded least I σ .polynomial e v d q) : DegreeAtMost I σ d (e.derivative x) := by
  have hd : d < degreeBound := hg.admits
  induction h generalizing v d q with
  | var =>
      rw [Expr.derivative, if_pos rfl]
      exact .const _ hd
  | named hy _ =>
      rw [Expr.derivative, if_neg hy]
      exact .const _ hd
  | const c => exact .const _ hd
  | add _ _ iha ihb =>
      cases hg with
      | add ha hb hj _ _ _ => exact ((iha ha ha.admits).add (ihb hb hb.admits)).mono hj hd
  | sub _ _ iha ihb =>
      cases hg with
      | sub ha hb hj _ _ _ => exact ((iha ha ha.admits).sub (ihb hb hb.admits)).mono hj hd
  | mul _ _ iha ihb =>
      cases hg with
      | mul ha hb hj _ _ _ =>
          have hsum := hj.trans_lt hd
          have hleft := (iha ha ha.admits).mul ⟨_, _, hb.relax⟩ hsum
          have hright := DegreeAtMost.mul ⟨_, _, ha.relax⟩ (ihb hb hb.admits) hsum
          exact (hleft.add hright).mono (by omega) hd
  | div _ hb hr iha =>
      cases hg with
      | @div _ _ _ _ _ i j _ _ _ _ ha _ _ hj _ _ _ =>
          have hi : i < degreeBound := ha.admits
          have hleft := (iha ha ha.admits).mul hb.degreeAtMost (by omega)
          have hright := (hb.degreeAtMost_derivative (x := x)).mul ⟨_, _, ha.relax⟩ (by omega)
          have hsquare : IsNumber (.pow _ (ofInt 2)) (_ ^ 2) :=
            hb.pow (by simpa using isNumber_ofInt (κ := κ) 2) two_pos
          exact ((hleft.sub hright).divNumber hsquare (pow_ne_zero 2 hr)).mono (by omega) hd
  | @pow a b p n _ hb hn iha =>
      cases hg with
      | @pow _ _ _ u m i j k l _ _ ha hexp _ hi _ _ _ _ =>
          -- the exponent is the number `n`
          have hm : (m : K) = ((n : ℤ) : K) := by simpa using hexp.hasValue.unique hb.hasValue
          obtain rfl := Int.cast_injective hm
          rw [Int.natAbs_natCast] at hi
          rw [Expr.derivative, hb.mentions]
          exact (DegreeAtMost.powerRule ⟨_, _, ha.relax⟩ hb hn (iha ha ha.admits)
            (hi.trans_lt hd)).mono hi hd

end Degrees

/-! ### Presentations -/

/-- No elementary function is defined. -/
def noFunctions (K : Type) : Functions K := fun _ _ => none

variable {least : ℕ} {x : String} {e : Expr κ} {p : Polynomial ℚ} {d : ℕ}

/-- An expression of a polynomial in `x`, whose degree is at most `d` for every value of `x`. -/
structure Presents (least : ℕ) (x : String) (e : Expr κ) (p : Polynomial ℚ) (d : ℕ) : Prop where
  /-- It is an expression of the polynomial. -/
  polynomial : PolynomialIn least x e p
  /-- Its degree is bounded. -/
  degree (t : ℚ) : DegreeAtMost (noFunctions ℚ) (constantsAnd κ x t) d e

/-- An expression of a polynomial that is read presents it, if its degrees are bounded. -/
theorem Presents.of_parse {text : String} (parsed : Expr.parse text = .ok e)
    (polynomial : PolynomialIn 0 x e p)
    (degrees : e.DegreesBounded (noFunctions ℚ) Scope.empty .polynomial) :
    Presents 0 x e p (e.degree (noFunctions ℚ) Scope.empty) := by
  refine ⟨polynomial, fun t => ?_⟩
  have hvalue := polynomial.hasValue (I := noFunctions ℚ) t
  have hg := Graded.of_hasValue hvalue (Notation.parse_named parsed)
    (polynomial.degreesBounded degrees)
  rw [polynomial.degree_eq] at hg
  exact ⟨_, _, hg⟩

theorem foldsExactly_noFunctions : FoldsExactly κ (noFunctions ℚ) := by
  intro f c n v _ hv
  simp [noFunctions] at hv

variable [ExactNumber κ]

/-- **Simplification presents the same polynomial**, without an exponent zero. -/
theorem Presents.simplify (h : Presents 0 x e p d) : Presents 1 x e.simplify p d := by
  obtain ⟨p', hp'⟩ := h.polynomial.simplify
  have graded (t : ℚ) : ∃ q, Graded 1 (noFunctions ℚ) (constantsAnd κ x t) .polynomial e.simplify
      (p.eval t) d q := by
    obtain ⟨v, q, hg⟩ := h.degree t
    have hs := hg.simplify foldsExactly_noFunctions
    rw [hg.hasValue.unique (h.polynomial.hasValue t)] at hs
    exact ⟨q, hs⟩
  -- the polynomials agree at every point
  have heq : p' = p := by
    refine Polynomial.funext fun t => ?_
    obtain ⟨q, hg⟩ := graded t
    exact (hp'.hasValue t).unique hg.hasValue
  refine ⟨heq ▸ hp', fun t => ?_⟩
  obtain ⟨q, hg⟩ := graded t
  exact ⟨_, q, hg.relax⟩

/-- The derivative presents the derivative. -/
theorem Presents.derivative (h : Presents 1 x e p d) :
    Presents 0 x (e.derivative x) (Polynomial.derivative p) d := by
  refine ⟨h.polynomial.derivative, fun t => ?_⟩
  obtain ⟨v, q, hg⟩ := h.degree t
  exact h.polynomial.degreeAtMost_derivative hg

/-- **The simplified derivative presents the derivative.** -/
theorem Presents.simplifiedDerivative (h : Presents 1 x e p d) :
    Presents 1 x (e.simplifiedDerivative x) (Polynomial.derivative p) d :=
  h.derivative.simplify

/-- The value at zero is the constant coefficient. -/
theorem Presents.value_zero (h : Presents least x e p d) :
    ∃ c, e.value (Scope.single x Arithmetic.zero) = .ok c ∧ Number.value c = p.coeff 0 := by
  have hvalue := h.polynomial.hasValue (I := noFunctions ℚ) 0
  have symbols : ∀ y v, constantsAnd κ x 0 y = some v →
      ∃ c, (Scope.single x (Arithmetic.zero : κ)).lookup y = .ok c ∧ valueIn ℚ c = v := by
    intro y v hv
    unfold constantsAnd at hv
    by_cases hy : y = x
    · rw [if_pos hy] at hv
      refine ⟨Arithmetic.zero, by simp [Scope.lookup, Scope.single, hy], ?_⟩
      rw [← Option.some.inj hv, Arithmetic.zero, valueIn_ofInt, Int.cast_zero]
    · rw [if_neg hy] at hv
      obtain ⟨c, hc, rfl⟩ := Option.map_eq_some_iff.1 hv
      exact ⟨c, by simp [Scope.lookup, Scope.single, hy, hc], by simp [valueIn]⟩
  obtain ⟨c, hc, hv⟩ := hvalue.eval_eq symbols fun f c v hv => by simp [noFunctions] at hv
  refine ⟨c, by rw [Expr.value, hc]; rfl, ?_⟩
  rw [Polynomial.coeff_zero_eq_eval_zero]
  simpa [valueIn] using hv

/-! ### Equations -/

theorem checkThird_ok {c : κ} (abs : Number.value (Roots.magnitude c) = |Number.value c|) :
    checkThird (.ok c) =
      if 1 / 10 ^ 10 < |Number.value c| then .error .degreeTooHigh else .ok () := by
  have tolerance : Number.value (Arithmetic.tolerance : κ) = 1 / 10 ^ 10 := by
    rw [Arithmetic.tolerance, ExactNumber.value_ofDecimal]
    norm_num
  simp only [checkThird, ExactNumber.finite, Bool.not_true, Bool.false_eq_true, if_false,
    ExactNumber.less_iff, tolerance, abs]

/-- **The coefficients at zero are those of the polynomial**, unless its degree is too high. -/
theorem Presents.taylorCoefficients (h : Presents 1 x e p d)
    (abs : ∀ c : κ, Number.value c = 6 * p.coeff 3 →
      Number.value (Roots.magnitude c) = |Number.value c|) :
    ∃ t : TaylorCoefficients κ,
      Number.value t.second = 2 * p.coeff 2 ∧ Number.value t.first = p.coeff 1 ∧
        Number.value t.value = p.coeff 0 ∧
        e.taylorCoefficients x =
          if 1 / 10 ^ 10 < |6 * p.coeff 3| then .error .degreeTooHigh else .ok t := by
  have hfirst := h.simplifiedDerivative
  have hsecond := hfirst.simplifiedDerivative
  obtain ⟨c, hc, vc⟩ := h.value_zero
  obtain ⟨b, hb, vb⟩ := hfirst.value_zero
  obtain ⟨a, ha, va⟩ := hsecond.value_zero
  obtain ⟨f, hf, vf⟩ := hsecond.simplifiedDerivative.value_zero
  simp only [Polynomial.coeff_derivative] at vb va vf
  have vf : Number.value f = 6 * p.coeff 3 := by
    rw [vf]
    norm_num
    ring
  refine ⟨⟨a, b, c⟩, ?_, ?_, vc, ?_⟩
  · rw [va]
    norm_num
    ring
  · rw [vb]
    norm_num
  · have hthird := checkThird_ok (abs f vf)
    rw [vf] at hthird
    simp only [Expr.taylorCoefficients, hc, hb, ha, hf, hthird, ExactNumber.finite, Bool.not_true,
      Bool.false_eq_true, if_false, if_true]
    split <;> rfl

end Expr

/-- A text without an equals sign is its own zero form. -/
theorem zeroForm_of_noEquals {text : String} (h : '=' ∉ text.toList) : zeroForm text = text := by
  have cut : ∀ {cs : List Char}, '=' ∉ cs → Text.cut? '=' cs = none := by
    intro cs h
    induction cs with
    | nil => rfl
    | cons c cs ih =>
        obtain ⟨hc, hcs⟩ := not_or.1 (mt List.mem_cons.2 h)
        rw [Text.cut?, if_neg (Ne.symm hc), ih hcs, Option.map_none]
  rw [zeroForm, zeroFormChars, cut h, String.ofList_toList]

variable {κ : Type} [Number κ] [ExactNumber κ] {text x : String} {e : Expr κ} {p : Polynomial ℚ}

/-- **An equation of a polynomial is solved from its coefficients.**  For an expression of a
polynomial, all of whose degrees are below the bound, the roots are those for twice the coefficient
of the square, the coefficient of the variable and the constant, unless six times the coefficient
of the cube is above the tolerance.  There is no other failure. -/
theorem solve_polynomial (noEquals : '=' ∉ text.toList) (parsed : Expr.parse text = .ok e)
    (polynomial : e.PolynomialIn 0 x p)
    (degrees : e.DegreesBounded (Expr.noFunctions ℚ) Scope.empty .polynomial)
    (abs : ∀ c : κ, Number.value c = 6 * p.coeff 3 →
      Number.value (Roots.magnitude c) = |Number.value c|) :
    ∃ a₂ a₁ a₀ : κ,
      Number.value a₂ = 2 * p.coeff 2 ∧ Number.value a₁ = p.coeff 1 ∧
        Number.value a₀ = p.coeff 0 ∧
        solve text x =
          if 1 / 10 ^ 10 < |6 * p.coeff 3| then ⟨[], .error .degreeTooHigh⟩
          else ⟨[.coefficients a₂ a₁ a₀], .ok (Roots.classify a₂ a₁ a₀).text⟩ := by
  have presents := Expr.Presents.of_parse parsed polynomial degrees
  obtain ⟨t, h₂, h₁, h₀, ht⟩ := presents.simplify.taylorCoefficients abs
  refine ⟨t.second, t.first, t.value, h₂, h₁, h₀, ?_⟩
  have hread : equationCoefficients (κ := κ) text x = e.simplify.taylorCoefficients x := by
    rw [equationCoefficients, zeroForm_of_noEquals noEquals, parseExpr, parsed]
    rfl
  rw [solve, hread, ht]
  by_cases hcube : 1 / 10 ^ 10 < |6 * p.coeff 3|
  · rw [if_pos hcube, if_pos hcube]
  · rw [if_neg hcube, if_neg hcube]

open Expr (PolynomialIn noFunctions) in
/-- The coefficients of `x^2-5*x+6` are found, and there is no failure. -/
theorem solve_polynomial_square :
    '=' ∉ "x^2-5*x+6".toList ∧
      ∃ (e : Expr Ratio) (p : Polynomial ℚ), Expr.parse "x^2-5*x+6" = .ok e ∧
        e.PolynomialIn 0 "x" p ∧ e.DegreesBounded (noFunctions ℚ) Scope.empty .polynomial ∧
        (∀ c : Ratio, Number.value c = 6 * p.coeff 3 →
          Number.value (Roots.magnitude c) = |Number.value c|) ∧
        ∃ a₂ a₁ a₀ : Ratio, Number.value a₂ = 2 ∧ Number.value a₁ = -5 ∧ Number.value a₀ = 6 ∧
          solve "x^2-5*x+6" "x" =
            ⟨[.coefficients a₂ a₁ a₀], .ok (Roots.classify a₂ a₁ a₀).text⟩ := by
  have noEquals : '=' ∉ "x^2-5*x+6".toList := by decide
  let number (n : ℕ) : Expr Ratio := .const (Arithmetic.ofDecimal n 0)
  let e : Expr Ratio :=
    .add (.sub (.pow (.var "x") (number 2)) (.mul (number 5) (.var "x"))) (number 6)
  let p : Polynomial ℚ := .X ^ 2 - .C ((5 : ℕ) : ℚ) * .X + .C ((6 : ℕ) : ℚ)
  have value (n : ℕ) : Number.value (Arithmetic.ofDecimal n 0 : Ratio) = n := by
    simp [ExactNumber.value_ofDecimal]
  have parsed : Expr.parse "x^2-5*x+6" = .ok e := by
    have digit (c : Char) (hc : c.isDigit = true) :
        Notation.Spells .signed [c] (number (Literal.natural [c])) :=
      .unsigned (.atom (.number (.whole (by simp) (by simpa using hc))))
    have unknown : Notation.Spells (κ := Ratio) .atom ['x'] (.var "x") :=
      .name (x := "x") (by decide)
    have square : Notation.Spells .sum ['x', '^', '2'] (.pow (.var "x") (number 2)) :=
      .term (.factor (.unsigned (.power (w := []) (u := []) unknown (by decide) (by decide)
        (digit '2' rfl))))
    have linear : Notation.Spells .product ['5', '*', 'x'] (.mul (number 5) (.var "x")) :=
      .product (w := []) (u := []) (.factor (digit '5' rfl)) (by decide) (by decide)
        (.unsigned (.atom unknown))
    have whole : Notation.Spells .sum "x^2-5*x+6".toList e :=
      .sum (w := []) (u := [])
        (.difference (w := []) (u := []) square (by decide) (by decide) linear) (by decide)
        (by decide) (.factor (digit '6' rfl))
    exact whole.parse_eq_ok
  have polynomial : e.PolynomialIn 0 "x" p := by
    have exponent : Expr.IsNumber (number 2) (2 : ℕ) := value 2 ▸ .const _
    have coefficient (n : ℕ) : (number n).PolynomialIn 0 "x" (.C (n : ℚ)) := value n ▸ .const _
    exact ((PolynomialIn.var.pow exponent (Nat.zero_le _)).sub ((coefficient 5).mul .var)).add
      (coefficient 6)
  have degrees : e.DegreesBounded (noFunctions ℚ) Scope.empty .polynomial := by
    have exponent : Expr.exponentAt (noFunctions ℚ) Scope.empty (number 2) = 2 :=
      Expr.IsNumber.exponentAt_eq (n := 2) (value 2 ▸ .const _)
    simp [e, number, Expr.DegreesBounded, Expr.degree, Grading.Admits, Grading.size, degreeBound,
      exponent]
  have coeffs : p.coeff 3 = 0 ∧ p.coeff 2 = 1 ∧ p.coeff 1 = -5 ∧ p.coeff 0 = 6 := by
    simp [p, Polynomial.coeff_X, Polynomial.coeff_C]
  obtain ⟨h₃, h₂, h₁, h₀⟩ := coeffs
  have abs : ∀ c : Ratio, Number.value c = 6 * p.coeff 3 →
      Number.value (Roots.magnitude c) = |Number.value c| := by
    rintro ⟨q⟩ hq
    obtain rfl : q = 0 := by simpa [h₃] using hq
    rfl
  obtain ⟨a₂, a₁, a₀, v₂, v₁, v₀, hsolve⟩ :=
    solve_polynomial noEquals parsed polynomial degrees abs
  rw [if_neg (by norm_num [h₃])] at hsolve
  exact ⟨noEquals, e, p, parsed, polynomial, degrees, abs, a₂, a₁, a₀, by rw [v₂, h₂, mul_one],
    by rw [v₁, h₁], by rw [v₀, h₀], hsolve⟩

end Reckoner
