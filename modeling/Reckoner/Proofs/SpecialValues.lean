/-
**Results that are not finite.**

The numbers of the running program have undefined results, infinities and zeros of both signs, and
the rules for them are those of IEEE arithmetic.  An operation is undefined where it tends to no
limit and where an operand is undefined.  Powers are an exception: with the exponent zero and with
the base one they are one, whatever the other operand is, also if it is undefined or infinite.  The
rules say nothing about rounding, so that they hold with it and without it.

Main definitions:

* `Reckoner.Arithmetic.isUndefined`, `Reckoner.Arithmetic.isInfinite` — results that are not finite;
* `Reckoner.SpecialValues` — the rules.

Main results:

* the instance `Reckoner.SpecialValues Reckoner.Extended` — **the real numbers with signed
  infinities obey the rules**.
-/

import Reckoner.Proofs.ExtendedReals

set_option autoImplicit false

namespace Reckoner

/-! ### Results that are not finite -/

namespace Arithmetic

variable {κ : Type} [Arithmetic κ]

/-- Equal to no number, itself included. -/
def isUndefined (c : κ) : Bool := !same c c

/-- An infinity of either sign. -/
def isInfinite (c : κ) : Bool := same c c && !isFinite c

end Arithmetic

open Arithmetic (isFinite isInfinite isNegative isOne isUndefined isZero)

/-- The rules of IEEE arithmetic for results that are not finite. -/
class SpecialValues (κ : Type) [Number κ] : Prop where
  isFinite_of_isUndefined {c : κ} : isUndefined c = true → isFinite c = false
  /-- What is undefined makes a result undefined. -/
  add_undefined {c d : κ} : isUndefined c = true ∨ isUndefined d = true →
    isUndefined (c + d) = true
  sub_undefined {c d : κ} : isUndefined c = true ∨ isUndefined d = true →
    isUndefined (c - d) = true
  mul_undefined {c d : κ} : isUndefined c = true ∨ isUndefined d = true →
    isUndefined (c * d) = true
  div_undefined {c d : κ} : isUndefined c = true ∨ isUndefined d = true →
    isUndefined (c / d) = true
  apply_undefined (f : Elementary) {c : κ} : isUndefined c = true →
    isUndefined (Arithmetic.apply f c) = true
  /-- A power is undefined with an operand, unless the other one makes it one. -/
  pow_undefined_base {c d : κ} : isUndefined c = true → isZero d = false →
    isUndefined (Arithmetic.pow c d) = true
  pow_undefined_exponent {c d : κ} : isUndefined d = true → isOne c = false →
    isUndefined (Arithmetic.pow c d) = true
  pow_zero {c d : κ} : isZero d = true → isOne (Arithmetic.pow c d) = true
  one_pow {c d : κ} : isOne c = true → isOne (Arithmetic.pow c d) = true
  /-- Operations that tend to no limit. -/
  add_infinite {c d : κ} : isInfinite c = true → isInfinite d = true →
    isNegative c ≠ isNegative d → isUndefined (c + d) = true
  sub_infinite {c d : κ} : isInfinite c = true → isInfinite d = true →
    isNegative c = isNegative d → isUndefined (c - d) = true
  zero_mul_infinite {c d : κ} : isZero c = true → isInfinite d = true →
    isUndefined (c * d) = true
  infinite_mul_zero {c d : κ} : isInfinite c = true → isZero d = true →
    isUndefined (c * d) = true
  zero_div_zero {c d : κ} : isZero c = true → isZero d = true → isUndefined (c / d) = true
  infinite_div_infinite {c d : κ} : isInfinite c = true → isInfinite d = true →
    isUndefined (c / d) = true

/-! ### The real numbers with infinities -/

namespace Extended

variable {c : Extended}

theorem isUndefined_iff : isUndefined c = true ↔ c = undefined := by
  cases c with
  | undefined => exact iff_of_true rfl rfl
  | signed s m =>
      have hsame : Arithmetic.same (signed s m) (signed s m) = true := by
        show compare (· = ·) (signed s m) (signed s m) = true
        simp [compare]
      simp [isUndefined, hsame]

theorem isInfinite_iff : isInfinite c = true ↔ ∃ s, c = signed s ⊤ := by
  cases c with
  | undefined => exact iff_of_false (by simp [isInfinite, Arithmetic.same, compare]) (by simp)
  | signed s m =>
      show (compare (· = ·) (signed s m) (signed s m) && !finite (signed s m)) = true ↔ _
      simp [compare, finite]

theorem zero_eq : (Arithmetic.zero : Extended) = signed false 0 := by
  show ofReal ((0 : ℤ) : ℝ) = _
  simp [ofReal]

theorem one_eq : (Arithmetic.one : Extended) = unit := by
  show ofReal ((1 : ℤ) : ℝ) = _
  simp [ofReal, unit]

theorem ofDecimal_zero : (Arithmetic.ofDecimal 0 0 : Extended) = Arithmetic.zero := by
  show ofReal ((0 : ℕ) * ten ^ (0 : ℤ)) = ofReal ((0 : ℤ) : ℝ)
  simp

theorem ofDecimal_one : (Arithmetic.ofDecimal 1 0 : Extended) = unit := by
  rw [← one_eq]
  show ofReal ((1 : ℕ) * ten ^ (0 : ℤ)) = ofReal ((1 : ℤ) : ℝ)
  simp

theorem denotes_unit : Denotes unit (1 : ℚ) := by
  have h := denotes_ofInt 1
  rw [← Arithmetic.one, one_eq] at h
  simpa using h

theorem isZero_iff : isZero c = true ↔ ∃ s, c = signed s 0 := by
  rw [isZero, zero_eq]
  cases c with
  | undefined => exact iff_of_false (by simp [Arithmetic.same, compare]) (by simp)
  | signed s m =>
      show compare (· = ·) (signed s m) (signed false 0) = true ↔ _
      cases s <;> simp [compare, toEReal]

theorem isOne_iff : isOne c = true ↔ c = unit := by
  rw [isOne, one_eq]
  cases c with
  | undefined => exact iff_of_false (by simp [Arithmetic.same, compare]) (by simp [unit])
  | signed s m =>
      show compare (· = ·) (signed s m) unit = true ↔ _
      cases s with
      | false => simp [compare, toEReal, unit]
      | true =>
          have hle : -(m : EReal) ≤ 0 := by simpa using EReal.coe_ennreal_nonneg m
          have hne : -(m : EReal) ≠ 1 := (hle.trans_lt zero_lt_one).ne
          simp [compare, toEReal, unit, hne]

theorem isNegative_infinite (s : Bool) : isNegative (signed s ⊤) = s := by
  rw [isNegative, zero_eq]
  show compare (· < ·) (signed s ⊤) (signed false 0) = s
  cases s <;> simp [compare, toEReal]

/-- An undefined number is no operand of a sum, a product or a quotient. -/
theorem undefined_operand {c d : Extended} (h : isUndefined c = true ∨ isUndefined d = true) :
    plus c d = undefined ∧ times c d = undefined ∧ divided c d = undefined := by
  rcases h with h | h <;> obtain rfl := isUndefined_iff.1 h
  · exact ⟨rfl, rfl, rfl⟩
  · cases c <;> exact ⟨rfl, rfl, rfl⟩

instance : SpecialValues Extended where
  isFinite_of_isUndefined h := by
    obtain rfl := isUndefined_iff.1 h
    rfl
  add_undefined h := isUndefined_iff.2 (undefined_operand h).1
  sub_undefined {c d} h := by
    refine isUndefined_iff.2 (undefined_operand (d := negate d) (h.imp_right fun h => ?_)).1
    obtain rfl := isUndefined_iff.1 h
    exact isUndefined_iff.2 rfl
  mul_undefined h := isUndefined_iff.2 (undefined_operand h).2.1
  div_undefined h := isUndefined_iff.2 (undefined_operand h).2.2
  apply_undefined f c h := by
    obtain rfl := isUndefined_iff.1 h
    refine isUndefined_iff.2 ?_
    cases f <;> rfl
  pow_undefined_base {c d} hc hd := by
    obtain rfl := isUndefined_iff.1 hc
    have hzero : ¬∃ t, d = signed t 0 := by rw [← isZero_iff, hd]; exact Bool.false_ne_true
    exact isUndefined_iff.2 ((if_neg (not_or.2 ⟨hzero, by simp [unit]⟩)).trans rfl)
  pow_undefined_exponent {c d} hd hc := by
    obtain rfl := isUndefined_iff.1 hd
    have hone : c ≠ unit := by rw [Ne, ← isOne_iff, hc]; exact Bool.false_ne_true
    refine isUndefined_iff.2 ((if_neg (not_or.2 ⟨by simp, hone⟩)).trans ?_)
    cases c <;> rfl
  pow_zero h := isOne_iff.2 (if_pos (.inl (isZero_iff.1 h)))
  one_pow h := isOne_iff.2 (if_pos (.inr (isOne_iff.1 h)))
  add_infinite hc hd hne := by
    obtain ⟨s, rfl⟩ := isInfinite_iff.1 hc
    obtain ⟨t, rfl⟩ := isInfinite_iff.1 hd
    rw [isNegative_infinite, isNegative_infinite] at hne
    exact isUndefined_iff.2 ((if_neg hne).trans (if_pos ⟨rfl, rfl⟩))
  sub_infinite hc hd heq := by
    obtain ⟨s, rfl⟩ := isInfinite_iff.1 hc
    obtain ⟨t, rfl⟩ := isInfinite_iff.1 hd
    rw [isNegative_infinite, isNegative_infinite] at heq
    exact isUndefined_iff.2 ((if_neg (by simp [heq])).trans (if_pos ⟨rfl, rfl⟩))
  zero_mul_infinite hc hd := by
    obtain ⟨s, rfl⟩ := isZero_iff.1 hc
    obtain ⟨t, rfl⟩ := isInfinite_iff.1 hd
    exact isUndefined_iff.2 (if_pos (.inl ⟨rfl, rfl⟩))
  infinite_mul_zero hc hd := by
    obtain ⟨s, rfl⟩ := isInfinite_iff.1 hc
    obtain ⟨t, rfl⟩ := isZero_iff.1 hd
    exact isUndefined_iff.2 (if_pos (.inr ⟨rfl, rfl⟩))
  zero_div_zero hc hd := by
    obtain ⟨s, rfl⟩ := isZero_iff.1 hc
    obtain ⟨t, rfl⟩ := isZero_iff.1 hd
    exact isUndefined_iff.2 (if_pos (.inl ⟨rfl, rfl⟩))
  infinite_div_infinite hc hd := by
    obtain ⟨s, rfl⟩ := isInfinite_iff.1 hc
    obtain ⟨t, rfl⟩ := isInfinite_iff.1 hd
    refine isUndefined_iff.2 ?_
    show divided (signed s ⊤) (signed t ⊤) = undefined
    simp [divided]

end Extended

end Reckoner
