/-
**The binary number nearest to a value.**

What a value is rounded to lies no farther from it than any other binary number: numbers with the
same power of two, or a greater one, are whole units apart, and a smaller power of two is left only
at the edge between two of them.  Every value in the range of the numbers is rounded to one, and a
written number is read as the one that its value is rounded to, with its sign.

Main results:

* `Reckoner.Binary64.Rounds.nearest` — **a value is rounded to a number nearest to it**;
* `Reckoner.Binary64.exists_rounds` — **every value in the range is rounded to one**;
* `Reckoner.Binary64.exists_canonical_natural` — natural numbers of 53 bits are binary numbers;
* `Reckoner.Binary64.exists_canonical_of_reading` — the exact value of a finite number;
* `Reckoner.Binary64.reading_ofLiteral`, `Reckoner.Binary64.reading_ofLiteral_zero` — **the exact
  value of a number that is read**.
-/

import Mathlib.Data.Int.Log
import Reckoner.Proofs.DecimalRounding
import Reckoner.Proofs.FixedPlaces

set_option autoImplicit false

namespace Reckoner.Binary64

open Float.Model (UnpackedFloat)
open Float.Model.UnpackedFloat
open Float.Model.Format (binary64)

variable {m M n : ℕ} {q Q p : ℤ} {t v : ℚ}

/-! ### The nearest number -/

theorem zpow_succ_eq (q : ℤ) : (2 : ℚ) ^ (q + 1) = 2 * 2 ^ q := by
  rw [zpow_add_one₀ two_ne_zero, mul_comm]

/-- A binary number with a greater power of two is greater, unless both are the same. -/
theorem lt_of_power_lt (hc : IsCanonical m q) (hc' : IsCanonical M Q) (h : q < Q) :
    (m : ℚ) * 2 ^ q ≤ (2 ^ 52 - 1 / 2) * 2 ^ Q ∧ (2 ^ 52 : ℚ) ≤ M := by
  have hm : (m : ℚ) ≤ 2 ^ 53 - 1 := by
    have := hc.lt
    have : (m : ℚ) + 1 ≤ 2 ^ 53 := by exact_mod_cast this
    linarith
  have hM : (2 ^ 52 : ℚ) ≤ M := by
    have hnormal : Q ≠ -1074 := by
      have := hc.least
      omega
    exact_mod_cast hc'.normal hnormal
  refine ⟨?_, hM⟩
  have hpow : (2 : ℚ) * 2 ^ q ≤ 2 ^ Q := by
    rw [← zpow_succ_eq]
    exact zpow_le_zpow_right₀ one_le_two (by omega)
  have hpos : (0 : ℚ) < 2 ^ q := by positivity
  calc (m : ℚ) * 2 ^ q ≤ (2 ^ 53 - 1) * 2 ^ q := by gcongr
    _ = (2 ^ 52 - 1 / 2) * (2 * 2 ^ q) := by ring
    _ ≤ (2 ^ 52 - 1 / 2) * 2 ^ Q := by gcongr

/-- A binary number with a power of two that is not smaller is a multiple of the other power. -/
theorem exists_multiple (M : ℕ) (h : q ≤ Q) : ∃ k : ℕ, (M : ℚ) * 2 ^ Q = k * 2 ^ q := by
  refine ⟨M * 2 ^ (Q - q).toNat, ?_⟩
  rw [zpow_eq_mul_pow h]
  push_cast
  ring

/-- **A value is rounded to a number nearest to it.** -/
theorem Rounds.nearest (ht : Rounds m q t) (hc : IsCanonical m q) (hc' : IsCanonical M Q) :
    |m * 2 ^ q - t| ≤ |M * 2 ^ Q - t| := by
  have hpow : (0 : ℚ) < 2 ^ q := by positivity
  have hlow := ht.low
  have hhigh := ht.high
  -- a number further down is at least as far away as a whole unit, or half of one at an edge
  have below {v : ℚ} (hv : v ≤ m * 2 ^ q) (htwice : m * 2 ^ q + v ≤ 2 * t) :
      |m * 2 ^ q - t| ≤ |v - t| := by
    have hdistance : t - v ≤ |v - t| := by
      rw [abs_sub_comm]
      exact le_abs_self _
    rw [abs_le']
    constructor <;> linarith
  rcases le_or_gt q Q with hle | hlt
  · obtain ⟨k, hk⟩ := exists_multiple M hle
    rw [hk]
    rcases lt_trichotomy k m with hless | rfl | hmore
    · have hunit : ((k : ℚ) + 1) * 2 ^ q ≤ m * 2 ^ q := by
        gcongr
        exact_mod_cast hless
      exact below (by linarith) (by linarith)
    · exact le_rfl
    · have hunit : ((m : ℚ) + 1) * 2 ^ q ≤ k * 2 ^ q := by
        gcongr
        exact_mod_cast hmore
      have hdistance : k * 2 ^ q - t ≤ |k * 2 ^ q - t| := le_abs_self _
      rw [abs_le']
      constructor <;> linarith
  · obtain ⟨hbelow, hlong⟩ := lt_of_power_lt hc' hc hlt
    have hsmallest : q ≠ -1074 := by
      have := hc'.least
      omega
    have hlong : 2 ^ 52 ≤ m := by exact_mod_cast hlong
    rcases hlong.eq_or_lt with hedge | hmore
    · have hm : (m : ℚ) = 2 ^ 52 := by exact_mod_cast hedge.symm
      have hquarter := ht.edge hedge.symm hsmallest
      rw [hm] at hquarter
      refine below ?_ ?_ <;> rw [hm] <;> linarith
    · have hunit : ((2 : ℚ) ^ 52 + 1) * 2 ^ q ≤ m * 2 ^ q := by
        gcongr
        exact_mod_cast hmore
      exact below (by linarith) (by linarith)

/-! ### There is one -/

/-- A value of 53 digits in units of a power of two is rounded to a number. -/
theorem exists_rounds_of_digits (hfloor : 2 ^ 52 ≤ t) (hceil : t < 2 ^ 53) (hleast : -1074 ≤ q)
    (hmost : q < 971) : ∃ M Q, IsCanonical M Q ∧ Rounds M Q (t * 2 ^ q) := by
  have hpow : (0 : ℚ) < 2 ^ q := by positivity
  obtain ⟨k, hk⟩ := Decimal.exists_isNearest (u := t) (by linarith)
  obtain ⟨⟨hlow, hhigh⟩, hstrict⟩ := Decimal.isNearest_iff.1 hk
  have hge : 2 ^ 52 ≤ k := by
    have : (2 : ℚ) ^ 52 < k + 1 := by linarith
    have : 2 ^ 52 < k + 1 := by exact_mod_cast this
    omega
  have hle : k ≤ 2 ^ 53 := by
    have : (k : ℚ) < 2 ^ 53 + 1 := by linarith
    have : k < 2 ^ 53 + 1 := by exact_mod_cast this
    omega
  rcases hle.lt_or_eq with hlt | rfl
  · refine ⟨k, q, ⟨by omega, hlt, hleast, hmost.le, fun _ => hge⟩, ?_, ?_, ?_, ?_⟩
    · gcongr
    · gcongr
    · intro hodd
      obtain ⟨hlow, hhigh⟩ := hstrict hodd
      constructor <;> gcongr
    · intro hedge _
      have hk : (k : ℚ) = 2 ^ 52 := by exact_mod_cast hedge
      gcongr
      linarith
  · -- rounded up to the next power of two
    push_cast at hlow
    have hunits : ((2 : ℚ) ^ 53 - 1 / 2) * 2 ^ q ≤ t * 2 ^ q := by
      gcongr
      linarith
    have hunits' : t * 2 ^ q ≤ (2 : ℚ) ^ 53 * 2 ^ q := by gcongr
    refine ⟨2 ^ 52, q + 1, ⟨by norm_num, by norm_num, by omega, hmost, fun _ => le_rfl⟩,
      ?_, ?_, ?_, ?_⟩
    · rw [zpow_succ_eq]
      push_cast
      linarith
    · rw [zpow_succ_eq]
      push_cast
      linarith
    · intro hodd
      norm_num at hodd
    · intro _ _
      rw [zpow_succ_eq]
      push_cast
      linarith

/-- **Every value in the range of the numbers is rounded to one.** -/
theorem exists_rounds (hlow : 2 ^ (-1022 : ℤ) ≤ t) (hhigh : t < 2 ^ (1023 : ℤ)) :
    ∃ m q, IsCanonical m q ∧ Rounds m q t := by
  have hpos : 0 < t := lt_of_lt_of_le (by positivity) hlow
  -- in units of the power of two that its first digit calls for, the value has 53 digits
  obtain ⟨q, hq⟩ : ∃ q, q = Int.log 2 t - 52 := ⟨_, rfl⟩
  have hfloor : (2 : ℚ) ^ (q + 52) ≤ t := by
    rw [hq, sub_add_cancel]
    exact Int.zpow_log_le_self one_lt_two hpos
  have hceil : t < (2 : ℚ) ^ (q + 53) := by
    have hlog : q + 53 = Int.log 2 t + 1 := by omega
    rw [hlog]
    exact Int.lt_zpow_succ_log_self one_lt_two t
  have hleast := lt_of_two_zpow_lt (hlow.trans_lt hceil)
  have hmost := lt_of_two_zpow_lt (hfloor.trans_lt hhigh)
  have hpow : (0 : ℚ) < 2 ^ q := by positivity
  obtain ⟨u, rfl⟩ : ∃ u, t = u * 2 ^ q := ⟨t / 2 ^ q, by field_simp⟩
  rw [zpow_add₀ two_ne_zero, mul_comm, mul_le_mul_iff_left₀ hpow] at hfloor
  rw [zpow_add₀ two_ne_zero, mul_comm _ ((2 : ℚ) ^ (53 : ℤ)),
    mul_lt_mul_iff_left₀ hpow] at hceil
  exact exists_rounds_of_digits (by exact_mod_cast hfloor) (by exact_mod_cast hceil) (by omega)
    (by omega)

/-- Natural numbers of 53 bits are binary numbers. -/
theorem exists_canonical_natural (h0 : 0 < n) (h : n < 2 ^ 53) :
    ∃ m q, IsCanonical m q ∧ (m : ℚ) * 2 ^ q = n := by
  obtain ⟨m, q, hm, hunpack, -, hvalue⟩ := unpack_toFloat h0 h
  exact ⟨m, q, isCanonical_of_unpack hunpack, hvalue⟩

/-! ### Exact values -/

theorem dyadic_eq (m : ℕ) (q : ℤ) : dyadic m q = m * 2 ^ q := by
  cases q with
  | ofNat k =>
      change (((m * 2 ^ k : ℕ) : ℚ)) = m * 2 ^ (k : ℤ)
      rw [zpow_natCast]
      push_cast
      rfl
  | negSucc k =>
      change mkRat m (2 ^ (k + 1)) = m * 2 ^ (Int.negSucc k)
      rw [zpow_negSucc, Rat.mkRat_eq_div, div_eq_mul_inv]
      push_cast
      rfl

/-- A finite number is zero, or has a canonical significand and power. -/
theorem exists_canonical_of_reading {x : Float} (h : reading x = .finite v) :
    v = 0 ∨ ∃ m q, IsCanonical m q ∧ |v| = m * 2 ^ q := by
  cases hx : x.toModel.unpack with
  | notANumber => simp [reading, hx] at h
  | infinity s => simp [reading, hx] at h
  | zero s =>
      left
      simpa [reading, hx] using h.symm
  | finite s m q hm =>
      refine .inr ⟨m, q, isCanonical_of_unpack hx, ?_⟩
      have hpos : (0 : ℚ) ≤ m * 2 ^ q := by positivity
      simp only [reading, hx, dyadic_eq, Reading.finite.injEq] at h
      rw [← h, abs_signed hpos]

/-! ### Reading a number -/

/-- The digits of zero are read as zero, with any power of ten. -/
theorem ofDecimal_zero (p : ℤ) :
    ofDecimal 0 p = Float.ofModel (Float.Model.pack (.zero .positive)) := by
  cases p with
  | ofNat k =>
      change Float.ofScientific 0 false k = _
      rw [Float.ofScientific]
      split
      case isTrue h =>
        have hk : k < Float.exactlyRepresentablePowersOfTen.size := Nat.lt_succ_of_le h.2
        obtain ⟨m, q, hm, hten, -⟩ := unpack_powerOfTen hk
        change Float.ofModel (Float.Model.pack (mul binary64 (0 : ℕ).toUInt64.toFloat.toModel.unpack
          Float.exactlyRepresentablePowersOfTen[k].toModel.unpack)) = _
        rw [hten]
        rfl
      case isFalse h => rfl
  | negSucc k =>
      change Float.ofScientific 0 true (k + 1) = _
      rw [Float.ofScientific]
      split
      case isTrue h =>
        have hk : k + 1 < Float.exactlyRepresentablePowersOfTen.size := Nat.lt_succ_of_le h.2
        obtain ⟨m, q, hm, hten, -⟩ := unpack_powerOfTen hk
        change Float.ofModel (Float.Model.pack (div binary64 (0 : ℕ).toUInt64.toFloat.toModel.unpack
          Float.exactlyRepresentablePowersOfTen[k + 1].toModel.unpack)) = _
        rw [hten]
        rfl
      case isFalse h => rfl

/-- A zero of either sign has the value zero. -/
theorem reading_ofLiteral_zero (negative : Bool) (p : ℤ) :
    reading (Arithmetic.ofLiteral (.decimal negative 0 p)) = .finite 0 := by
  change reading (if negative then -(ofDecimal 0 p) else ofDecimal 0 p) = _
  rw [ofDecimal_zero]
  cases negative <;> rfl

/-- **A written number is read as a number that it rounds to**, with its sign. -/
theorem reading_ofLiteral (hc : IsCanonical m q) (ht : Rounds m q (n * 10 ^ p)) (negative : Bool) :
    reading (Arithmetic.ofLiteral (.decimal negative n p)) =
      .finite (if negative then -(m * 2 ^ q) else m * 2 ^ q) := by
  change reading (if negative then -(ofDecimal n p) else ofDecimal n p) = _
  rw [ofDecimal_eq hc ht]
  have hvalue (s : Sign) : reading (Float.ofModel (Float.Model.pack (.finite s m q hc.pos))) =
      .finite (if s == .negative then -(m * 2 ^ q) else m * 2 ^ q) := by
    have hunpack : (Float.ofModel (Float.Model.pack (.finite s m q hc.pos))).toModel.unpack =
        .finite s m q hc.pos := unpack_pack hc
    simp only [reading, hunpack, dyadic_eq]
  cases negative with
  | false => exact hvalue .positive
  | true =>
      change reading (Float.ofModel (Float.Model.pack (UnpackedFloat.neg
        (Float.Model.pack (.finite .positive m q hc.pos)).unpack))) = _
      rw [unpack_pack hc]
      exact hvalue .negative

end Reckoner.Binary64
