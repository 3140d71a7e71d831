/-
**Rounding to a binary number.**

A result is computed as a significand that may be cut off, with two bits for what was cut: whether
the first binary digit behind it is one, and whether any follow.  Shifting keeps both right, so the
significand that is left in the end is the one nearest to the exact value, the even one from the
middle.  Rounding may lengthen it by a bit, and then a second shift restores its form.

Stated for one number at a time this says which values round to it: those of an interval around the
number that reaches half a unit to both sides, and a quarter below a power of two, where the units
get shorter.

Main definitions:

* `Reckoner.Binary64.Rounds` — the values that round to a number;
* `Reckoner.Binary64.Represents` — what a significand with its two bits stands for.

Main results:

* `Reckoner.Binary64.Represents.shiftRight` — shifting keeps what was cut off;
* `Reckoner.Binary64.Represents.roundedMantissa_eq` — the rounded significand is the nearest;
* `Reckoner.Binary64.roundWithAccuracy_eq` — **a value is rounded to the number in whose interval
  it lies**.
-/

import Mathlib.Tactic
import Reckoner.Proofs.Packing

set_option autoImplicit false

namespace Reckoner.Binary64

open Float.Model (UnpackedFloat totalExponent)
open Float.Model.UnpackedFloat
open Float.Model.Format (binary64)

variable {s : Sign} {m M : ℕ} {q E Q : ℤ} {t u : ℚ} {acc : Accuracy} {em : ExtendedMantissa}

/-- The values that round to `m * 2 ^ q`: half a unit to both sides, with the ends only if `m` is
even, and below a power of two a quarter. -/
structure Rounds (m : ℕ) (q : ℤ) (t : ℚ) : Prop where
  low : (m - 1 / 2) * 2 ^ q ≤ t
  high : t ≤ (m + 1 / 2) * 2 ^ q
  strict : m % 2 = 1 → (m - 1 / 2) * 2 ^ q < t ∧ t < (m + 1 / 2) * 2 ^ q
  edge : m = 2 ^ 52 → q ≠ -1074 → (m - 1 / 4) * 2 ^ q ≤ t

/-- A number rounds to itself. -/
theorem rounds_self (m : ℕ) (q : ℤ) : Rounds m q (m * 2 ^ q) := by
  have hpow : (0 : ℚ) < 2 ^ q := by positivity
  constructor
  · linarith
  · linarith
  · intro _
    constructor <;> linarith
  · intro _ _
    linarith

/-! ### What is cut off -/

/-- The value is the significand with a part of a unit behind it: the first binary digit of that
part is the round bit, and the sticky bit tells whether more follow. -/
def Represents (em : ExtendedMantissa) (u : ℚ) : Prop :=
  ∃ r : ℚ, 0 ≤ r ∧ r < 1 / 2 ∧ (em.stickyBit = true ↔ r ≠ 0) ∧
    u = em.mantissa + (if em.roundBit then 1 / 2 else 0) + r

theorem Represents.mantissa_le (h : Represents em u) : (em.mantissa : ℚ) ≤ u := by
  obtain ⟨r, h0, -, -, rfl⟩ := h
  split <;> linarith

theorem Represents.lt_mantissa (h : Represents em u) : u < em.mantissa + 1 := by
  obtain ⟨r, -, h1, -, rfl⟩ := h
  split <;> linarith

theorem represents_exact (M : ℕ) :
    Represents (ExtendedMantissa.ofMantissaAndAccuracy M .exact) M :=
  ⟨0, le_rfl, by norm_num, by simp [ExtendedMantissa.ofMantissaAndAccuracy],
    by simp [ExtendedMantissa.ofMantissaAndAccuracy]⟩

/-- The remainder of a division tells what was cut off. -/
theorem represents_fraction (M : ℕ) {num den : ℕ} (h : num < den) :
    Represents (ExtendedMantissa.ofMantissaAndAccuracy M (accuracyOfFraction num den))
      (M + num / den) := by
  have hden : (0 : ℚ) < den := by exact_mod_cast Nat.zero_lt_of_lt h
  have hlt : (num : ℚ) / den < 1 := by rw [div_lt_one hden]; exact_mod_cast h
  rw [accuracyOfFraction]
  split
  case isTrue hnum => simpa [hnum] using represents_exact M
  case isFalse hnum =>
    have hnum : (0 : ℚ) < num := by exact_mod_cast Nat.pos_of_ne_zero hnum
    have hpos : (0 : ℚ) < num / den := div_pos hnum hden
    cases hcmp : compare (2 * num) den with
    | lt =>
        have hhalf : (2 * num : ℚ) < den := by exact_mod_cast Nat.compare_eq_lt.1 hcmp
        refine ⟨num / den, hpos.le, ?_, ?_, ?_⟩
        · rw [div_lt_div_iff₀ hden (by norm_num)]
          linarith
        · simp [ExtendedMantissa.ofMantissaAndAccuracy, hpos.ne']
        · simp [ExtendedMantissa.ofMantissaAndAccuracy]
    | eq =>
        have hhalf : (2 * num : ℚ) = den := by exact_mod_cast Nat.compare_eq_eq.1 hcmp
        refine ⟨0, le_rfl, by norm_num, ?_, ?_⟩
        · simp [ExtendedMantissa.ofMantissaAndAccuracy]
        · simp [ExtendedMantissa.ofMantissaAndAccuracy, ← hhalf]
          field_simp
    | gt =>
        have hhalf : (den : ℚ) < 2 * num := by exact_mod_cast Nat.compare_eq_gt.1 hcmp
        have hhalf : 1 / 2 < (num : ℚ) / den := by
          rw [div_lt_div_iff₀ (by norm_num) hden]
          linarith
        refine ⟨num / den - 1 / 2, by linarith, by linarith, ?_, ?_⟩
        · simp [ExtendedMantissa.ofMantissaAndAccuracy]
          linarith
        · simp [ExtendedMantissa.ofMantissaAndAccuracy]

/-- Shifting by one bit halves the value. -/
theorem Represents.shiftRightOne (h : Represents em u) : Represents em.shiftRightOne (u / 2) := by
  obtain ⟨r, h0, h1, hsticky, rfl⟩ := h
  have hhalves : (em.mantissa : ℚ) = 2 * (em.mantissa / 2 : ℕ) + (em.mantissa % 2 : ℕ) := by
    exact_mod_cast (Nat.div_add_mod em.mantissa 2).symm
  -- The old round bit and what follows it are behind the new round bit.
  refine ⟨(if em.roundBit then 1 / 4 else 0) + r / 2, ?_, ?_, ?_, ?_⟩
  · split <;> linarith
  · split <;> linarith
  · cases hround : em.roundBit with
    | false => simpa [ExtendedMantissa.shiftRightOne, hround] using hsticky
    | true =>
        have hpos : 1 / 4 + r / 2 ≠ 0 := by linarith
        simpa [ExtendedMantissa.shiftRightOne, hround] using hpos
  · rcases Nat.mod_two_eq_zero_or_one em.mantissa with hbit | hbit <;>
      simp only [ExtendedMantissa.shiftRightOne, hhalves, hbit] <;> split <;> simp <;> ring

/-- Shifting keeps what was cut off. -/
theorem Represents.shiftRight (h : Represents em u) (k : ℕ) :
    Represents (em >>> k) (u / 2 ^ k) := by
  change Represents (k.repeat ExtendedMantissa.shiftRightOne em) _
  induction k with
  | zero => simpa [Nat.repeat] using h
  | succ k ih =>
      rw [pow_succ, ← div_div]
      exact ih.shiftRightOne

theorem eq_of_lt_add_one {k : ℕ} (h : (k : ℚ) < m + 1) (h' : (m : ℚ) < k + 1) : k = m := by
  have h : k < m + 1 := by exact_mod_cast h
  have h' : m < k + 1 := by exact_mod_cast h'
  omega

/-- **The rounded significand is the nearest one**, from the middle the even one. -/
theorem Represents.roundedMantissa_eq (h : Represents em u) (hlow : m - 1 / 2 ≤ u)
    (hhigh : u ≤ m + 1 / 2) (hstrict : m % 2 = 1 → m - 1 / 2 < u ∧ u < m + 1 / 2) :
    em.roundedMantissa = m := by
  obtain ⟨k, round, sticky⟩ := em
  obtain ⟨r, h0, h1, hsticky, rfl⟩ := h
  cases round <;> cases sticky <;>
    simp only [ExtendedMantissa.roundedMantissa, ExtendedMantissa.accuracy,
      Accuracy.roundToNearestEven, Bool.false_eq_true, if_true, if_false, false_iff, true_iff,
      not_not] at *
  case false.false =>
    subst hsticky
    exact eq_of_lt_add_one (by linarith) (by linarith)
  case false.true => exact eq_of_lt_add_one (by linarith) (by linarith)
  case true.false =>
    -- The value is in the middle, so the even one of its two neighbours is not excluded.
    have hk : k < m + 1 := by
      have : (k : ℚ) < m + 1 := by linarith
      exact_mod_cast this
    have hm : m < k + 2 := by
      have : (m : ℚ) < k + 2 := by linarith
      exact_mod_cast this
    have heven : m % 2 = 0 := by
      by_contra hodd
      obtain ⟨hlow, hhigh⟩ := hstrict (by omega)
      have : k < m := by
        have : (k : ℚ) < m := by linarith
        exact_mod_cast this
      have : m < k + 1 := by
        have : (m : ℚ) < k + 1 := by linarith
        exact_mod_cast this
      omega
    omega
  case true.true =>
    have hpos : 0 < r := lt_of_le_of_ne h0 (Ne.symm hsticky)
    exact eq_of_lt_add_one (by push_cast; linarith) (by push_cast; linarith)

/-! ### The form of the result -/

/-- The power of two that the length of a significand calls for. -/
def target (M : ℕ) (E : ℤ) : ℤ := max (M.log2 + 1 + E - 53) (-1074)

theorem le_target (M : ℕ) (E : ℤ) : -1074 ≤ target M E := le_max_right _ _

theorem targetExponent_eq (M : ℕ) (E : ℤ) :
    binary64.targetExponent (totalExponent M E) = target M E := rfl

/-- Shifting never lengthens a significand, so it reaches its target from below. -/
theorem shiftToTargetExponent_eq (hE : E ≤ target M E) : shiftToTargetExponent binary64 M E acc =
    (ExtendedMantissa.ofMantissaAndAccuracy M acc >>> (target M E - E).toNat, target M E) := by
  have hshift : E + ((target M E - E).toNat : ℤ) = target M E := by omega
  rw [shiftToTargetExponent, targetExponent_eq, shiftToExponent, hshift]

theorem mantissa_ofMantissaAndAccuracy (M : ℕ) (acc : Accuracy) :
    (ExtendedMantissa.ofMantissaAndAccuracy M acc).mantissa = M := by
  unfold ExtendedMantissa.ofMantissaAndAccuracy
  split <;> rfl

/-- At its target a value has at most 53 bits before the point. -/
theorem lt_target (h : Represents (ExtendedMantissa.ofMantissaAndAccuracy M acc) u) :
    u * 2 ^ E < 2 ^ (target M E + 53) := by
  have hu : u < 2 ^ ((M.log2 : ℤ) + 1) := by
    have hM : M + 1 ≤ 2 ^ (M.log2 + 1) := Nat.lt_log2_self
    have hM : (M : ℚ) + 1 ≤ 2 ^ ((M.log2 : ℤ) + 1) := by exact_mod_cast hM
    have := h.lt_mantissa
    rw [mantissa_ofMantissaAndAccuracy] at this
    linarith
  calc u * 2 ^ E < 2 ^ ((M.log2 : ℤ) + 1) * 2 ^ E := by gcongr
    _ = 2 ^ ((M.log2 : ℤ) + 1 + E) := (zpow_add₀ two_ne_zero _ _).symm
    _ ≤ 2 ^ (target M E + 53) := zpow_le_zpow_right₀ one_le_two (by rw [target]; omega)

/-- At its target a value has no fewer than 53 bits, unless the power is the smallest. -/
theorem target_le (h : Represents (ExtendedMantissa.ofMantissaAndAccuracy M acc) u)
    (hE : E ≤ target M E) (hQ : target M E ≠ -1074) : 2 ^ (target M E + 52) ≤ u * 2 ^ E := by
  have htarget : target M E = M.log2 + 1 + E - 53 := by
    rw [target] at hQ ⊢
    omega
  have hu : (2 : ℚ) ^ (M.log2 : ℤ) ≤ u := by
    have hM : M ≠ 0 := by
      rintro rfl
      simp at htarget
      omega
    have hM : (2 : ℚ) ^ (M.log2 : ℤ) ≤ M := by exact_mod_cast Nat.log2_self_le hM
    have := h.mantissa_le
    rw [mantissa_ofMantissaAndAccuracy] at this
    linarith
  calc (2 : ℚ) ^ (target M E + 52) = 2 ^ ((M.log2 : ℤ) + E) := by
        rw [htarget]
        congr 1
        omega
    _ = 2 ^ (M.log2 : ℤ) * 2 ^ E := zpow_add₀ two_ne_zero _ _
    _ ≤ u * 2 ^ E := by gcongr

theorem lt_of_two_zpow_lt {a b : ℤ} (h : (2 : ℚ) ^ a < 2 ^ b) : a < b :=
  (zpow_lt_zpow_iff_right₀ one_lt_two).1 h

/-- The target for a value that rounds to a number is the power of the number, or one less if the
value is just below a power of two. -/
theorem eq_of_rounds (hc : IsCanonical m q) (ht : Rounds m q t) (hQ : -1074 ≤ Q)
    (hlow : Q ≠ -1074 → 2 ^ (Q + 52) ≤ t) (hhigh : t < 2 ^ (Q + 53)) :
    Q = q ∨ m = 2 ^ 52 ∧ q ≠ -1074 ∧ Q = q - 1 := by
  have hpow : (0 : ℚ) < 2 ^ q := by positivity
  have hshift (k : ℤ) : (2 : ℚ) ^ (q + k) = 2 ^ k * 2 ^ q := by
    rw [zpow_add₀ two_ne_zero, mul_comm]
  have hle : Q ≤ q := by
    by_cases hsmall : Q = -1074
    · exact hsmall ▸ hc.least
    · have hm : (m : ℚ) + 1 ≤ 2 ^ (53 : ℤ) := by exact_mod_cast hc.lt
      have := lt_of_two_zpow_lt (a := Q + 52) (b := q + 53) <| calc
        (2 : ℚ) ^ (Q + 52) ≤ (m + 1 / 2) * 2 ^ q := (hlow hsmall).trans ht.high
        _ < 2 ^ (53 : ℤ) * 2 ^ q := by gcongr; linarith
        _ = 2 ^ (q + 53) := (hshift 53).symm
      omega
  by_cases hsmall : q = -1074
  · omega
  by_cases hedge : m = 2 ^ 52
  · have hm : (m : ℚ) = 2 ^ (52 : ℤ) := by exact_mod_cast hedge
    have := lt_of_two_zpow_lt (a := q + 51) (b := Q + 53) <| calc
      (2 : ℚ) ^ (q + 51) = 2 ^ (51 : ℤ) * 2 ^ q := hshift 51
      _ < (m - 1 / 4) * 2 ^ q := by rw [hm]; gcongr; norm_num
      _ ≤ t := ht.edge hedge hsmall
      _ < 2 ^ (Q + 53) := hhigh
    omega
  · have hm : 2 ^ 52 + 1 ≤ m := by
      have := hc.normal hsmall
      omega
    have hm : (2 : ℚ) ^ (52 : ℤ) + 1 ≤ m := by exact_mod_cast hm
    have := lt_of_two_zpow_lt (a := q + 52) (b := Q + 53) <| calc
      (2 : ℚ) ^ (q + 52) = 2 ^ (52 : ℤ) * 2 ^ q := hshift 52
      _ < (m - 1 / 2) * 2 ^ q := by gcongr; linarith
      _ ≤ t := ht.low
      _ < 2 ^ (Q + 53) := hhigh
    omega

/-- The form of a canonical significand is not changed. -/
theorem shiftToTargetExponent_canonical (hc : IsCanonical m q) :
    shiftToTargetExponent binary64 m q .exact = (⟨m, false, false⟩, q) := by
  have htarget : target m q = q := by
    have := hc.least
    have := hc.log2_le
    rw [target]
    by_cases hq : q = -1074
    · omega
    · have := hc.log2_eq hq
      omega
  rw [shiftToTargetExponent_eq htarget.ge, htarget, Int.sub_self]
  rfl

/-- A significand that was rounded up to 54 bits loses its last one. -/
theorem shiftToTargetExponent_overflow (hq : -1074 < q) :
    shiftToTargetExponent binary64 (2 ^ 53) (q - 1) .exact = (⟨2 ^ 52, false, false⟩, q) := by
  have htarget : target (2 ^ 53) (q - 1) = q := by
    rw [target, Nat.log2_two_pow]
    omega
  have hshift : (q - (q - 1)).toNat = 1 := by omega
  rw [shiftToTargetExponent_eq (by omega), htarget, hshift]
  rfl

/-- In units of its target the value is what the shifted significand stands for. -/
theorem represents_target (h : Represents (ExtendedMantissa.ofMantissaAndAccuracy M acc) u)
    (hE : E ≤ target M E) :
    Represents (ExtendedMantissa.ofMantissaAndAccuracy M acc >>> (target M E - E).toNat)
      (u * 2 ^ E / 2 ^ target M E) := by
  have hsum : target M E = E + ((target M E - E).toNat : ℤ) := by omega
  have hunits : u * 2 ^ E / 2 ^ target M E = u / 2 ^ (target M E - E).toNat := by
    nth_rewrite 1 [hsum]
    rw [zpow_add₀ two_ne_zero, zpow_natCast, mul_comm u, mul_div_mul_left _ _ (by positivity)]
  rw [hunits]
  exact h.shiftRight _

/-- Rounding to a significand that has the right form. -/
theorem roundedMantissa_of_rounds (hrep : Represents em (t / 2 ^ q)) (ht : Rounds m q t) :
    em.roundedMantissa = m := by
  have hpow : (0 : ℚ) < 2 ^ q := by positivity
  refine hrep.roundedMantissa_eq ?_ ?_ fun hodd => ?_
  · exact (le_div_iff₀ hpow).2 ht.low
  · exact (div_le_iff₀ hpow).2 ht.high
  · exact ⟨(lt_div_iff₀ hpow).2 (ht.strict hodd).1, (div_lt_iff₀ hpow).2 (ht.strict hodd).2⟩

/-- Rounding up from just below a power of two. -/
theorem roundedMantissa_of_edge (hrep : Represents em (t / 2 ^ (q - 1)))
    (hlow : (2 ^ 52 - 1 / 4) * 2 ^ q ≤ t) (hhigh : t < 2 ^ (q - 1 + 53)) :
    em.roundedMantissa = 2 ^ 53 := by
  have hpow : (0 : ℚ) < 2 ^ (q - 1) := by positivity
  have hhalf : (2 : ℚ) ^ q = 2 * 2 ^ (q - 1) := by
    rw [← zpow_one_add₀ two_ne_zero]
    congr 1
    omega
  have hlow : (2 ^ 53 - 1 / 2 : ℚ) ≤ t / 2 ^ (q - 1) := by
    rw [le_div_iff₀ hpow]
    linarith
  have hhigh : t / 2 ^ (q - 1) < (2 ^ 53 : ℚ) := by
    rw [div_lt_iff₀ hpow, mul_comm]
    rwa [zpow_add₀ two_ne_zero] at hhigh
  refine hrep.roundedMantissa_eq ?_ ?_ fun hodd => ?_
  · push_cast
    exact hlow
  · push_cast
    linarith
  · norm_num at hodd

/-- **A value is rounded to the number in whose interval it lies.** -/
theorem roundWithAccuracy_eq (hc : IsCanonical m q)
    (hrep : Represents (ExtendedMantissa.ofMantissaAndAccuracy M acc) u) (hE : E ≤ target M E)
    (ht : Rounds m q (u * 2 ^ E)) :
    roundWithAccuracy binary64 s M E acc = .finite s m q hc.pos := by
  have hshifted := represents_target hrep hE
  have hfirst : shiftToTargetExponent binary64 M E acc = _ := shiftToTargetExponent_eq hE
  have hlt := lt_target hrep (E := E)
  have hQ := eq_of_rounds hc ht (le_target M E) (target_le hrep hE) hlt
  generalize target M E = Q at hshifted hfirst hlt hQ
  rw [roundWithAccuracy, hfirst]
  rcases hQ with rfl | ⟨rfl, hq, rfl⟩
  · simp only [roundedMantissa_of_rounds hshifted ht, shiftToTargetExponent_canonical hc,
      hc.pos.ne', dite_false]
  · have hleast := hc.least
    have hlow := ht.edge rfl hq
    push_cast at hlow
    simp only [roundedMantissa_of_edge hshifted hlow hlt,
      shiftToTargetExponent_overflow (lt_of_le_of_ne hleast (Ne.symm hq)), hc.pos.ne', dite_false]

end Reckoner.Binary64
