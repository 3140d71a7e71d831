/-
**How near a result is printed, and in which order.**

A bare result is printed as zero, as an integer, or with six places.  These look like three ways to
print a number, but the first two only leave out the point and the zeros behind it: a number within
the tolerance of an integer is rounded to the integer in six places, too.  So one rounding says what
number is printed, on both sides of every integer and of zero.  It is at most half a millionth away,
and in the order of the numbers.

Main results:

* `Reckoner.Reading.denoted?_format` — **the text of a result denotes the number that six places
  round to**;
* `Reckoner.Reading.near_of_no_point` — a text without a point is that of an integer within the
  tolerance;
* `Reckoner.Binary64.format_near_monotone` — **binary numbers are printed within half a millionth,
  and in their order**.
-/

import Reckoner.Proofs.BinaryOrder
import Reckoner.Proofs.ShownNumbers

set_option autoImplicit false

namespace Reckoner

open Decimal (abs_sub_rounded_le denoted? rounded rounded_mono)

namespace Reading

variable {q : ℚ}

/-- **The text of a result denotes the number that six places round to.** -/
theorem denoted?_format (q : ℚ) : denoted? (finite q).format.toList = some (rounded 6 q) := by
  rcases lt_or_ge |q - nearestInteger q| (1 / 10 ^ 10) with hsnap | hapart
  · rw [format_of_snap hsnap, Decimal.denoted?_integer, rounded_of_near (by linarith)]
  · rw [format_of_apart fun z => hapart.trans (abs_sub_nearestInteger_le q z)]
    exact Decimal.denoted?_fixed 5 q

/-- A text without a point is that of an integer within the tolerance. -/
theorem near_of_no_point (h : '.' ∉ (finite q).format.toList) :
    rounded 6 q = nearestInteger q ∧ |q - nearestInteger q| < 1 / 10 ^ 10 := by
  have hsnap : |q - nearestInteger q| < 1 / 10 ^ 10 := by
    by_contra hapart
    rw [format_of_apart fun z => (not_lt.1 hapart).trans (abs_sub_nearestInteger_le q z)] at h
    exact h (Decimal.point_mem_fixed 5 q)
  exact ⟨rounded_of_near (by linarith), hsnap⟩

end Reading

namespace Binary64

open Arithmetic (isFinite)

/-- **A finite binary number is printed as a number at most half a millionth away**, without a point
only if it is within the tolerance of the integer that is printed, **and greater numbers are printed
as numbers that are not less**. -/
theorem format_near_monotone :
    (∀ v : Float, isFinite v = true → ∃ p r : ℚ, reading v = .finite p ∧
      denoted? (reading v).format.toList = some r ∧ |p - r| ≤ 5 / 10 ^ 7 ∧
        ('.' ∉ (reading v).format.toList → ∃ n : ℤ, r = n ∧ |p - n| < 1 / 10 ^ 10)) ∧
    (∀ v w : Float, isFinite v = true → isFinite w = true → v ≤ w → ∃ r s : ℚ,
      denoted? (reading v).format.toList = some r ∧
        denoted? (reading w).format.toList = some s ∧ r ≤ s) := by
  constructor
  · intro v hv
    obtain ⟨p, hp⟩ := exists_reading_of_isFinite hv
    rw [hp]
    refine ⟨p, rounded 6 p, rfl, Reading.denoted?_format p, ?_, ?_⟩
    · have hdistance := abs_sub_rounded_le 6 p
      linarith
    · intro hpoint
      obtain ⟨hrounded, hnear⟩ := Reading.near_of_no_point hpoint
      exact ⟨nearestInteger p, hrounded, hnear⟩
  · intro v w hv hw hle
    obtain ⟨p, hp⟩ := exists_reading_of_isFinite hv
    obtain ⟨q, hq⟩ := exists_reading_of_isFinite hw
    rw [hp, hq]
    exact ⟨_, _, Reading.denoted?_format p, Reading.denoted?_format q,
      rounded_mono 6 ((le_iff_of_reading hp hq).1 hle)⟩

/-- A number just below three, which is printed with six places, and three, which is printed without
a point. -/
theorem format_near_monotone_besideThree :
    isFinite (2.9999999 : Float) = true ∧ isFinite (3 : Float) = true ∧
      (2.9999999 : Float) ≤ 3 ∧
      (∃ p r : ℚ, reading 2.9999999 = .finite p ∧
        denoted? (reading 2.9999999).format.toList = some r ∧ |p - r| ≤ 5 / 10 ^ 7 ∧
        ('.' ∉ (reading 2.9999999).format.toList → ∃ n : ℤ, r = n ∧ |p - n| < 1 / 10 ^ 10)) ∧
      ∃ r s : ℚ, denoted? (reading 2.9999999).format.toList = some r ∧
        denoted? (reading 3).format.toList = some s ∧ r ≤ s := by
  have hlow : isFinite (2.9999999 : Float) = true := by decide
  have hhigh : isFinite (3 : Float) = true := by decide
  have hle : (2.9999999 : Float) ≤ 3 := by decide
  exact ⟨hlow, hhigh, hle, format_near_monotone.1 _ hlow,
    format_near_monotone.2 _ _ hlow hhigh hle⟩

end Binary64

end Reckoner
