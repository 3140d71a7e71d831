/-
**Equations over the real numbers.**

With exact arithmetic the roots of an equation are those that the quadratic formula says.  Its
discriminant is negative just when there is no real root, and if it is not, the polynomial is the
product of two linear factors, equal ones if the discriminant is zero.  A coefficient within the
tolerance counts as zero, and the comparisons with the tolerance, strict ones and others, divide the
equations into quadratic and linear ones and constants, without a gap.

Main results:

* `Reckoner.Roots.factored` — a polynomial of degree two by its roots;
* `Reckoner.Roots.text_quadratic`, `Reckoner.Roots.text_linear`, `Reckoner.Roots.text_constant` —
  what is answered to each kind of equation;
* `Reckoner.Roots.text_classify` — **the real roots are reported, and only those**.
-/

import Reckoner.Equation.Roots
import Reckoner.Proofs.ExtendedReals

set_option autoImplicit false

namespace Reckoner.Roots

open Extended (Denotes ofReal denotes_ofReal denotes_ofInt denotes_zero denotes_tolerance)
open Reading (formatReal)

/-! ### Polynomials of degree two -/

section Polynomials

variable {a b c : ℝ}

/-- **A polynomial is the product of the factors that belong to its roots.** -/
theorem factored (ha : a ≠ 0) (hD : 0 ≤ b * b - 4 * a * c) (x : ℝ) :
    a * x ^ 2 + b * x + c = a * (x - (-b + √(b * b - 4 * a * c)) / (2 * a)) *
      (x - (-b - √(b * b - 4 * a * c)) / (2 * a)) := by
  have hsquare := Real.sq_sqrt hD
  generalize √(b * b - 4 * a * c) = s at hsquare ⊢
  have hc : c = (b * b - s ^ 2) / (4 * a) := by
    field_simp
    linarith
  rw [hc]
  field_simp
  ring

/-- There is a real root just when the discriminant is not negative. -/
theorem exists_root_iff (ha : a ≠ 0) :
    (∃ r, a * r ^ 2 + b * r + c = 0) ↔ 0 ≤ b * b - 4 * a * c := by
  constructor
  · rintro ⟨r, hr⟩
    have hsquare : b * b - 4 * a * c = (2 * a * r + b) ^ 2 := by
      linear_combination (-4 * a) * hr
    rw [hsquare]
    exact sq_nonneg _
  · intro hD
    exact ⟨(-b + √(b * b - 4 * a * c)) / (2 * a), by rw [factored ha hD, sub_self]; ring⟩

end Polynomials

/-! ### Answers -/

variable {second first constant r r' : Extended} {a₂ b c x y : ℝ}

theorem less_magnitude_iff (h : Denotes second x) :
    Arithmetic.less Arithmetic.tolerance (magnitude second) = true ↔ 1 / 10 ^ 10 < |x| :=
  denotes_tolerance.less_eq h.abs

theorem magnitude_less_iff (h : Denotes second x) :
    Arithmetic.less (magnitude second) Arithmetic.tolerance = true ↔ |x| < 1 / 10 ^ 10 :=
  h.abs.less_eq denotes_tolerance

/-- What is beyond the tolerance is not zero. -/
theorem ne_zero_of_tolerance (h : 1 / 10 ^ 10 < |x|) : x ≠ 0 :=
  abs_pos.1 (lt_trans (by positivity) h)

theorem isNegative_iff (h : Denotes second x) : Arithmetic.isNegative second = true ↔ x < 0 :=
  h.less_eq denotes_zero

/-- The text of a root is that of its value. -/
theorem format_reading (h : Denotes r x) : (Number.reading r).format = formatReal x := by
  rw [h.reading_eq]
  rfl

/-- **To a quadratic equation its real roots are answered**, if there are any. -/
theorem text_quadratic (hsecond : Denotes second a₂) (hfirst : Denotes first b)
    (hconstant : Denotes constant c) (ha : 1 / 10 ^ 10 < |a₂|) :
    let D := b * b - 4 * (a₂ / 2) * c
    let r₁ := (-b + √D) / (2 * (a₂ / 2))
    let r₂ := (-b - √D) / (2 * (a₂ / 2))
    (classify second first constant).text =
      if D < 0 then "No real solutions"
      else if |r₁ - r₂| < 1 / 10 ^ 10 then formatReal r₁
      else formatReal r₁ ++ ", " ++ formatReal r₂ := by
  intro D r₁ r₂
  have hne : 2 * (a₂ / 2) ≠ 0 := by simpa using ne_zero_of_tolerance ha
  have htwo : Denotes (Arithmetic.ofInt 2) 2 := by
    simpa using denotes_ofInt 2
  have hfour : Denotes (Arithmetic.ofInt 4) 4 := by
    simpa using denotes_ofInt 4
  have hleading := hsecond.div htwo two_ne_zero
  have hdiscriminant := (hfirst.mul hfirst).sub ((hfour.mul hleading).mul hconstant)
  rw [classify, if_pos ((less_magnitude_iff hsecond).2 ha)]
  dsimp only
  by_cases hD : D < 0
  · rw [if_pos hD, if_pos ((isNegative_iff hdiscriminant).2 hD)]
    rfl
  · have hroot := hdiscriminant.sqrt (not_lt.1 hD)
    have hupper := (hfirst.neg.add hroot).div (htwo.mul hleading) hne
    have hlower := (hfirst.neg.sub hroot).div (htwo.mul hleading) hne
    rw [if_neg hD, if_neg ((isNegative_iff hdiscriminant).not.2 hD)]
    by_cases hclose : |r₁ - r₂| < 1 / 10 ^ 10
    · rw [if_pos hclose, if_pos ((magnitude_less_iff (hupper.sub hlower)).2 hclose)]
      exact format_reading hupper
    · rw [if_neg hclose, if_neg ((magnitude_less_iff (hupper.sub hlower)).not.2 hclose)]
      show (Number.reading _).format ++ ", " ++ (Number.reading _).format = _
      rw [format_reading hupper, format_reading hlower]

/-- **To a linear equation its root is answered.** -/
theorem text_linear (hsecond : Denotes second a₂) (hfirst : Denotes first b)
    (hconstant : Denotes constant c) (ha : |a₂| ≤ 1 / 10 ^ 10) (hb : 1 / 10 ^ 10 < |b|) :
    (classify second first constant).text = formatReal (-c / b) := by
  have hroot := hconstant.neg.div hfirst (ne_zero_of_tolerance hb)
  rw [classify, if_neg ((less_magnitude_iff hsecond).not.2 ha.not_gt),
    if_pos ((less_magnitude_iff hfirst).2 hb)]
  dsimp only
  rw [if_pos hroot.isFinite]
  exact format_reading hroot

/-- **A constant is answered to be zero everywhere or nowhere.** -/
theorem text_constant (hsecond : Denotes second a₂) (hfirst : Denotes first b)
    (hconstant : Denotes constant c) (ha : |a₂| ≤ 1 / 10 ^ 10) (hb : |b| ≤ 1 / 10 ^ 10) :
    (classify second first constant).text =
      if |c| < 1 / 10 ^ 10 then "All real numbers" else "No solution" := by
  rw [classify, if_neg ((less_magnitude_iff hsecond).not.2 ha.not_gt),
    if_neg ((less_magnitude_iff hfirst).not.2 hb.not_gt)]
  by_cases hc : |c| < 1 / 10 ^ 10
  · rw [if_pos hc, if_pos ((magnitude_less_iff hconstant).2 hc)]
    rfl
  · rw [if_neg hc, if_neg ((magnitude_less_iff hconstant).not.2 hc)]
    rfl

/-- Roots are never answered with the text for none. -/
theorem roots_ne_none (r₁ r₂ : ℝ) :
    (if |r₁ - r₂| < 1 / 10 ^ 10 then formatReal r₁ else formatReal r₁ ++ ", " ++ formatReal r₂) ≠
      "No real solutions" := by
  have hnumber (behind : String) : formatReal r₁ ++ behind ≠ "No real solutions" :=
    Reading.formatReal_append_ne r₁ behind rfl (by decide) (by decide)
  split
  · rw [← String.append_empty (s := formatReal r₁)]
    exact hnumber _
  · rw [String.append_assoc]
    exact hnumber _

/-- **The real roots of an equation are reported, and only those.**  A quadratic equation is
answered to have none just when it has none; otherwise both of its roots are answered, or one of
them if they are within the tolerance of each other. -/
theorem text_classify (a₂ b c : ℝ) :
    let answer := (classify (ofReal a₂) (ofReal b) (ofReal c)).text
    (1 / 10 ^ 10 < |a₂| →
      (answer = "No real solutions" ↔ ¬∃ r : ℝ, a₂ / 2 * r ^ 2 + b * r + c = 0) ∧
      ((∃ r : ℝ, a₂ / 2 * r ^ 2 + b * r + c = 0) → ∃ r₁ r₂ : ℝ,
        (∀ x, a₂ / 2 * x ^ 2 + b * x + c = a₂ / 2 * (x - r₁) * (x - r₂)) ∧
        answer = if |r₁ - r₂| < 1 / 10 ^ 10 then formatReal r₁
          else formatReal r₁ ++ ", " ++ formatReal r₂)) ∧
    (|a₂| ≤ 1 / 10 ^ 10 → 1 / 10 ^ 10 < |b| →
      ∃ r : ℝ, (∀ x, b * x + c = 0 ↔ x = r) ∧ answer = formatReal r) ∧
    (|a₂| ≤ 1 / 10 ^ 10 → |b| ≤ 1 / 10 ^ 10 →
      (answer = "All real numbers" ↔ |c| < 1 / 10 ^ 10)) := by
  intro answer
  have hsecond := denotes_ofReal a₂
  have hfirst := denotes_ofReal b
  have hconstant := denotes_ofReal c
  refine ⟨fun ha => ?_, fun ha hb => ?_, fun ha hb => ?_⟩
  · have hne : a₂ / 2 ≠ 0 := by simpa using ne_zero_of_tolerance ha
    have hanswer : answer = _ := text_quadratic hsecond hfirst hconstant ha
    rw [exists_root_iff hne, not_le]
    refine ⟨⟨fun hnone => ?_, fun hD => hanswer.trans (if_pos hD)⟩, fun hD => ?_⟩
    · by_contra hD
      rw [if_neg hD] at hanswer
      exact roots_ne_none _ _ (hanswer.symm.trans hnone)
    · exact ⟨_, _, factored hne hD, hanswer.trans (if_neg hD.not_gt)⟩
  · refine ⟨-c / b, fun x => ?_, text_linear hsecond hfirst hconstant ha hb⟩
    rw [eq_div_iff (ne_zero_of_tolerance hb)]
    constructor <;> intro h <;> linarith
  · have hanswer : answer = _ := text_constant hsecond hfirst hconstant ha hb
    rw [hanswer]
    split
    · rename_i hc
      exact iff_of_true rfl hc
    · rename_i hc
      exact iff_of_false (by decide) hc

/-- An equation of each kind: `x ^ 2 - 5 * x + 6 = 0`, `2 * x + 1 = 0` and a constant within the
tolerance. -/
theorem text_classify_kinds :
    let answer (a₂ b c : ℝ) := (classify (ofReal a₂) (ofReal b) (ofReal c)).text
    (1 / 10 ^ 10 < |(2 : ℝ)| ∧ (∃ r : ℝ, 2 / 2 * r ^ 2 + -5 * r + 6 = 0) ∧
      (answer 2 (-5) 6 = "3, 2" ∨ answer 2 (-5) 6 = "2, 3")) ∧
    (|(0 : ℝ)| ≤ 1 / 10 ^ 10 ∧ 1 / 10 ^ 10 < |(2 : ℝ)| ∧ answer 0 2 1 = "-0.500000") ∧
    (|(0 : ℝ)| ≤ 1 / 10 ^ 10 ∧ |(0 : ℝ)| ≤ 1 / 10 ^ 10 ∧
      answer 0 0 (1 / 10 ^ 12) = "All real numbers") := by
  intro answer
  have hzero : |(0 : ℝ)| ≤ 1 / 10 ^ 10 := by norm_num
  have htwo : 1 / 10 ^ 10 < |(2 : ℝ)| := by norm_num
  have hexists : ∃ r : ℝ, 2 / 2 * r ^ 2 + -5 * r + 6 = 0 := ⟨2, by norm_num⟩
  have format (q : ℚ) (text : String) (h : (Reading.finite q).format = text) :
      formatReal (q : ℝ) = text := (Reading.format_printed q).1.trans h
  refine ⟨⟨htwo, hexists, ?_⟩, ⟨hzero, htwo, ?_⟩, hzero, hzero, ?_⟩
  · obtain ⟨r₁, r₂, hfactors, hanswer⟩ := ((text_classify 2 (-5) 6).1 htwo).2 hexists
    have hsum : r₁ + r₂ = 5 := by linarith [hfactors 0, hfactors 1]
    have hproduct : (r₁ - 2) * (r₁ - 3) = 0 := by linarith [hfactors r₁]
    have h2 : formatReal 2 = "2" := by simpa using format 2 "2" (by decide +kernel)
    have h3 : formatReal 3 = "3" := by simpa using format 3 "3" (by decide +kernel)
    rcases mul_eq_zero.1 hproduct with hr | hr
    · obtain rfl : r₁ = 2 := by linarith
      obtain rfl : r₂ = 3 := by linarith
      rw [if_neg (by norm_num [abs_of_neg]), h2, h3] at hanswer
      exact .inr hanswer
    · obtain rfl : r₁ = 3 := by linarith
      obtain rfl : r₂ = 2 := by linarith
      rw [if_neg (by norm_num), h2, h3] at hanswer
      exact .inl hanswer
  · obtain ⟨r, hr, hanswer⟩ := (text_classify 0 2 1).2.1 hzero htwo
    obtain rfl : -1 / 2 = r := (hr _).1 (by norm_num)
    have hhalf : formatReal (-1 / 2) = "-0.500000" := by
      simpa using format (-1 / 2) "-0.500000" (by decide +kernel)
    exact hanswer.trans hhalf
  · refine ((text_classify 0 0 (1 / 10 ^ 12)).2.2 hzero hzero).2 ?_
    rw [abs_of_nonneg (by positivity)]
    norm_num

end Reckoner.Roots
