/-
**Numbers with a fixed count of places.**

A number is written with a fixed count of decimal places by rounding it to a multiple of the last
place: to the nearest one, and from the middle to the even one.  There is exactly one such multiple,
and what lies closer to it than the number is rounded to it too.

Main definitions:

* `Reckoner.Decimal.IsNearest` — the natural number that a number is rounded to;
* `Reckoner.Decimal.units` — a number in units of its last place;
* `Reckoner.Decimal.rounded` — the number that is written.

Main results:

* `Reckoner.Decimal.isNearest_roundEven`, `Reckoner.Decimal.IsNearest.unique` — **a quotient is
  rounded to the one nearest natural number**;
* `Reckoner.Decimal.IsNearest.of_closer` — so is what lies closer to it;
* `Reckoner.Decimal.fixed_congr` — numbers of one sign with the same units are written alike;
* `Reckoner.Decimal.abs_sub_rounded_le` — the number that is written is at most half a unit away;
* `Reckoner.Decimal.rounded_mono` — **what is written is in the order of the numbers**;
* `Reckoner.Decimal.fixed_of_closer` — a number that is no farther from it is written alike;
* `Reckoner.abs_sub_nearestInteger_le` — no integer is nearer than the one beside a number.
-/

import Mathlib.Tactic
import Reckoner.Number.Format

set_option autoImplicit false

namespace Reckoner

/-! ### Signs -/

section Signs

variable {a q : ℚ} {P : Prop} [Decidable P]

theorem abs_signed (h : 0 ≤ a) : |if P then -a else a| = a := by
  split
  · rw [abs_neg, abs_of_nonneg h]
  · rw [abs_of_nonneg h]

theorem signed_neg_iff (h : 0 < a) : (if P then -a else a) < 0 ↔ P := by
  split
  · rename_i hP
    exact iff_of_true (neg_lt_zero.2 h) hP
  · rename_i hP
    exact iff_of_false h.not_gt hP

theorem signed_abs (q : ℚ) : (if q < 0 then -|q| else |q|) = q := by
  split
  · rename_i hneg
    rw [abs_of_neg hneg, neg_neg]
  · rename_i hpos
    rw [abs_of_nonneg (not_lt.1 hpos)]

end Signs

namespace Decimal

variable {k l num den places : ℕ} {p q u v : ℚ}

/-! ### Rounding to a natural number -/

/-- The natural number that a number is rounded to: the nearest one, and from the middle the even
one. -/
structure IsNearest (k : ℕ) (u : ℚ) : Prop where
  near : |u - k| ≤ 1 / 2
  strict : k % 2 = 1 → |u - k| < 1 / 2

theorem isNearest_iff : IsNearest k u ↔ (k - 1 / 2 ≤ u ∧ u ≤ k + 1 / 2) ∧
    (k % 2 = 1 → k - 1 / 2 < u ∧ u < k + 1 / 2) := by
  have hle : |u - k| ≤ 1 / 2 ↔ k - 1 / 2 ≤ u ∧ u ≤ k + 1 / 2 := by
    rw [abs_le]
    constructor <;> rintro ⟨hlow, hhigh⟩ <;> constructor <;> linarith
  have hlt : |u - k| < 1 / 2 ↔ k - 1 / 2 < u ∧ u < k + 1 / 2 := by
    rw [abs_lt]
    constructor <;> rintro ⟨hlow, hhigh⟩ <;> constructor <;> linarith
  rw [← hle, ← hlt]
  exact ⟨fun h => ⟨h.near, h.strict⟩, fun h => ⟨h.1, h.2⟩⟩

/-- What lies closer to the natural number is rounded to it, too. -/
theorem IsNearest.of_closer (h : IsNearest k u) (hv : |v - k| ≤ |u - k|) : IsNearest k v :=
  ⟨hv.trans h.near, fun hodd => hv.trans_lt (h.strict hodd)⟩

/-- Rounding keeps the order. -/
theorem IsNearest.mono (h : IsNearest k u) (h' : IsNearest l v) (huv : u ≤ v) : k ≤ l := by
  by_contra hlt
  have hlow := (abs_le.1 h.near).1
  have hhigh := (abs_le.1 h'.near).2
  -- a greater one is the next one, and both numbers are in the middle between them
  have hnext : (k : ℚ) ≤ l + 1 := by linarith
  have hnext : k ≤ l + 1 := by exact_mod_cast hnext
  obtain rfl : k = l + 1 := by omega
  push_cast at hlow
  rcases Nat.mod_two_eq_zero_or_one l with heven | hodd
  · have := (abs_lt.1 (h.strict (by omega))).1
    push_cast at this
    linarith
  · have := (abs_lt.1 (h'.strict hodd)).2
    linarith

/-- **A number is rounded to one natural number only.** -/
theorem IsNearest.unique (h : IsNearest k u) (h' : IsNearest l u) : k = l :=
  le_antisymm (h.mono h' le_rfl) (h'.mono h le_rfl)

/-- **A quotient is rounded to the natural number nearest to it.** -/
theorem isNearest_roundEven (hden : 0 < den) : IsNearest (roundEven num den) (num / den) := by
  have hden' : (0 : ℚ) < den := by exact_mod_cast hden
  obtain ⟨r, hr⟩ : ∃ r, r = ((num % den : ℕ) : ℚ) / den := ⟨_, rfl⟩
  have hvalue : (num : ℚ) / den = (num / den : ℕ) + r := by
    have hdivision : (num : ℚ) = den * (num / den : ℕ) + (num % den : ℕ) := by
      exact_mod_cast (Nat.div_add_mod num den).symm
    rw [hr]
    field_simp
    linarith
  have hnonneg : 0 ≤ r := by
    rw [hr]
    positivity
  have hlt : r < 1 := by
    rw [hr, div_lt_one hden']
    exact_mod_cast Nat.mod_lt num hden
  have hlow : 2 * (num % den) < den ↔ r < 1 / 2 := by
    rw [hr, div_lt_div_iff₀ hden' two_pos, one_mul, mul_comm]
    exact_mod_cast Iff.rfl
  have hhigh : den < 2 * (num % den) ↔ 1 / 2 < r := by
    rw [hr, div_lt_div_iff₀ two_pos hden', one_mul, mul_comm _ (2 : ℚ)]
    exact_mod_cast Iff.rfl
  simp only [roundEven, hlow, hhigh]
  rw [hvalue]
  generalize num / den = below
  split
  · rename_i hbelow
    have hdistance : |(below : ℚ) + r - below| < 1 / 2 := by
      rw [add_sub_cancel_left, abs_of_nonneg hnonneg]
      exact hbelow
    exact ⟨hdistance.le, fun _ => hdistance⟩
  · split
    · rename_i habove
      have hdistance : |(below : ℚ) + r - (below + 1 : ℕ)| < 1 / 2 := by
        rw [abs_lt]
        push_cast
        constructor <;> linarith
      exact ⟨hdistance.le, fun _ => hdistance⟩
    · have hmiddle : r = 1 / 2 := by linarith
      rcases Nat.mod_two_eq_zero_or_one below with heven | hodd
      · rw [heven, hmiddle]
        refine ⟨?_, by omega⟩
        rw [add_zero, add_sub_cancel_left]
        norm_num
      · rw [hodd, hmiddle]
        refine ⟨?_, by omega⟩
        rw [abs_le]
        push_cast
        constructor <;> linarith

theorem natAbs_num_div_den (q : ℚ) : ((q.num.natAbs : ℕ) : ℚ) / q.den = |q| := by
  conv_rhs => rw [← Rat.num_div_den q]
  rw [abs_div, Nat.abs_cast, Nat.cast_natAbs, Int.cast_abs]

/-- Every number that is not negative is rounded. -/
theorem exists_isNearest (hu : 0 ≤ u) : ∃ k, IsNearest k u := by
  have hnearest := @isNearest_roundEven u.num.natAbs _ u.den_pos
  rw [natAbs_num_div_den, abs_of_nonneg hu] at hnearest
  exact ⟨_, hnearest⟩

/-! ### Units of the last place -/

/-- A number without its sign in units of its last place. -/
def units (places : ℕ) (q : ℚ) : ℕ := roundEven (q.num.natAbs * Nat.pow 10 places) q.den

theorem fixed_eq (places : ℕ) (q : ℚ) : fixed places q = String.ofList
    (if q < 0 then '-' :: pointed places (units places q) else pointed places (units places q)) :=
  rfl

theorem isNearest_units (places : ℕ) (q : ℚ) : IsNearest (units places q) (|q| * 10 ^ places) := by
  have hvalue : ((q.num.natAbs * Nat.pow 10 places : ℕ) : ℚ) / q.den = |q| * 10 ^ places := by
    have hpow : Nat.pow 10 places = 10 ^ places := rfl
    rw [hpow, Nat.cast_mul, mul_div_right_comm, natAbs_num_div_den]
    push_cast
    rfl
  rw [← hvalue]
  exact isNearest_roundEven q.den_pos

/-- Numbers of one sign with the same units are written alike. -/
theorem fixed_congr (hsign : p < 0 ↔ q < 0)
    (h : IsNearest (units places q) (|p| * 10 ^ places)) : fixed places p = fixed places q := by
  have hunits : units places p = units places q := (isNearest_units places p).unique h
  simp only [fixed_eq, hunits, hsign]

/-- The number that is written with a fixed count of places. -/
def rounded (places : ℕ) (q : ℚ) : ℚ :=
  if q < 0 then -(units places q / 10 ^ places) else units places q / 10 ^ places

theorem abs_rounded (places : ℕ) (q : ℚ) : |rounded places q| = units places q / 10 ^ places :=
  abs_signed (by positivity)

/-- **The number that is written is in the order of the numbers.** -/
theorem rounded_mono (places : ℕ) (h : p ≤ q) : rounded places p ≤ rounded places q := by
  have magnitudes {p q : ℚ} (h : |p| ≤ |q|) :
      (units places p : ℚ) / 10 ^ places ≤ units places q / 10 ^ places := by
    have hunits := (isNearest_units places p).mono (isNearest_units places q) (by gcongr)
    gcongr
  have hp : (0 : ℚ) ≤ units places p / 10 ^ places := by positivity
  have hq : (0 : ℚ) ≤ units places q / 10 ^ places := by positivity
  unfold rounded
  rcases lt_or_ge q 0 with hneg | hpos
  · have hreversed : |q| ≤ |p| := abs_le_abs_of_nonpos hneg.le h
    rw [if_pos hneg, if_pos (h.trans_lt hneg)]
    exact neg_le_neg (magnitudes hreversed)
  · rw [if_neg hpos.not_gt]
    split
    · linarith
    · rename_i hp0
      exact magnitudes (abs_le_abs_of_nonneg (not_lt.1 hp0) h)

/-- It has the sign of the number, if any. -/
theorem rounded_neg_iff (h : rounded places q ≠ 0) : rounded places q < 0 ↔ q < 0 := by
  have hpos : 0 < |rounded places q| := abs_pos.2 h
  rw [abs_rounded] at hpos
  exact signed_neg_iff hpos

/-- It is as far from the numbers of its sign as it is without the signs. -/
theorem abs_sub_rounded (hsign : p < 0 ↔ q < 0) :
    |p - rounded places q| = |(|p| - units places q / 10 ^ places)| := by
  unfold rounded
  split
  · rename_i hneg
    rw [abs_of_neg (hsign.2 hneg), ← abs_neg]
    congr 1
    ring
  · rename_i hpos
    rw [abs_of_nonneg (not_lt.1 fun h => hpos (hsign.1 h))]

theorem abs_mul_sub_units (hsign : p < 0 ↔ q < 0) :
    |(|p| * 10 ^ places - units places q)| = |p - rounded places q| * 10 ^ places := by
  have hpow : (0 : ℚ) < 10 ^ places := by positivity
  have hunits : |p| * 10 ^ places - units places q =
      (|p| - units places q / 10 ^ places) * 10 ^ places := by
    field_simp
  rw [abs_sub_rounded hsign, hunits, abs_mul, abs_of_pos hpow]

/-- **The number that is written is at most half a unit away.** -/
theorem abs_sub_rounded_le (places : ℕ) (q : ℚ) :
    |q - rounded places q| ≤ 1 / (2 * 10 ^ places) := by
  have hnear := (isNearest_units places q).near
  rw [abs_mul_sub_units Iff.rfl] at hnear
  rwa [← div_div, le_div_iff₀ (by positivity)]

/-- **A number that is no farther from what is written is written alike.** -/
theorem fixed_of_closer (hsign : p < 0 ↔ q < 0)
    (h : |p - rounded places q| ≤ |q - rounded places q|) : fixed places p = fixed places q := by
  refine fixed_congr hsign ((isNearest_units places q).of_closer ?_)
  rw [abs_mul_sub_units hsign, abs_mul_sub_units Iff.rfl]
  gcongr

end Decimal

/-! ### The nearest integer -/

section NearestInteger

/-- The integer beside a number is at most a half away. -/
theorem abs_sub_nearestInteger_le_half (q : ℚ) : |q - nearestInteger q| ≤ 1 / 2 := by
  have hfloor (u : ℚ) : ((u.floor : ℤ) : ℚ) ≤ u ∧ u < u.floor + 1 :=
    ⟨Rat.floor_le u, by exact_mod_cast Rat.lt_floor_add_one u⟩
  unfold nearestInteger
  rw [abs_le]
  split
  · obtain ⟨hlow, hhigh⟩ := hfloor ((2 * -q + 1) / 2)
    push_cast
    constructor <;> linarith
  · obtain ⟨hlow, hhigh⟩ := hfloor ((2 * q + 1) / 2)
    constructor <;> linarith

/-- **No integer is nearer.** -/
theorem abs_sub_nearestInteger_le (q : ℚ) (z : ℤ) : |q - nearestInteger q| ≤ |q - z| := by
  have hhalf := abs_sub_nearestInteger_le_half q
  by_cases hz : z = nearestInteger q
  · rw [hz]
  · have hapart : (1 : ℚ) ≤ |((nearestInteger q : ℤ) : ℚ) - z| := by
      have : 1 ≤ |nearestInteger q - z| := Int.one_le_abs (sub_ne_zero.2 (Ne.symm hz))
      exact_mod_cast this
    have htriangle := abs_sub_le ((nearestInteger q : ℤ) : ℚ) q z
    rw [abs_sub_comm _ q] at htriangle
    linarith

/-- It has the sign of the number, or none. -/
theorem signed_abs_nearestInteger (q : ℚ) :
    (if q < 0 then -|(nearestInteger q : ℚ)| else |(nearestInteger q : ℚ)|) = nearestInteger q := by
  obtain ⟨hlow, hhigh⟩ := abs_le.1 (abs_sub_nearestInteger_le_half q)
  split
  · have hlt : (nearestInteger q : ℚ) < 1 := by linarith
    have hlt : nearestInteger q < 1 := by exact_mod_cast hlt
    have hle : (nearestInteger q : ℚ) ≤ 0 := by exact_mod_cast Int.lt_add_one_iff.1 hlt
    rw [abs_of_nonpos hle, neg_neg]
  · have hlt : (-1 : ℚ) < nearestInteger q := by linarith
    have hlt : -1 < nearestInteger q := by exact_mod_cast hlt
    have hle : (0 : ℚ) ≤ nearestInteger q := by exact_mod_cast Int.add_one_le_iff.2 hlt
    rw [abs_of_nonneg hle]

end NearestInteger

end Reckoner
