/-
**Reading a decimal number.**

A natural number times a power of ten is read as the binary number that it rounds to.  Two ways lead
there.  If the digits and the power of ten are both exact binary numbers, one multiplication or one
division of binary numbers does it, which rounds once.  If not, the same operation is made on
significands of any length; a power of ten that would be too long for it is so far out of range that
nothing finite is nearest to the number.

Main results:

* `Reckoner.Binary64.mul_eq`, `Reckoner.Binary64.div_eq` — products and quotients are rounded;
* `Reckoner.Binary64.ofScientific_eq` — so are decimal numbers of any length;
* `Reckoner.Binary64.ofDecimal_eq` — **a decimal number is read as the number that it rounds to**.
-/

import Mathlib.Tactic
import Reckoner.Proofs.Rounding

set_option autoImplicit false

namespace Reckoner.Binary64

open Float.Model (UnpackedFloat totalExponent)
open Float.Model.UnpackedFloat
open Float.Model.Format (binary64)

variable {s s₁ s₂ : Sign} {m m₁ m₂ M n k : ℕ} {q q₁ q₂ E p : ℤ} {t : ℚ}
  {h₁ : 0 < m₁} {h₂ : 0 < m₂}

/-! ### Products and quotients -/

/-- A significand of 53 bits or more is not too short for its target. -/
theorem le_target_of_long (h : 2 ^ 52 ≤ M) : E ≤ target M E := by
  have hlog := (Nat.le_log2 (by omega)).2 h
  rw [target]
  omega

theorem mul_eq (hc : IsCanonical m q) (hlong : 2 ^ 52 ≤ m₁ * m₂)
    (ht : Rounds m q (m₁ * 2 ^ q₁ * (m₂ * 2 ^ q₂))) :
    mul binary64 (.finite s₁ m₁ q₁ h₁) (.finite s₂ m₂ q₂ h₂) =
      .finite (s₁ * s₂) m q hc.pos := by
  refine roundWithAccuracy_eq hc (represents_exact _) (le_target_of_long hlong) ?_
  have hvalue : ((m₁ * m₂ : ℕ) : ℚ) * 2 ^ (q₁ + q₂) = m₁ * 2 ^ q₁ * (m₂ * 2 ^ q₂) := by
    rw [zpow_add₀ two_ne_zero]
    push_cast
    ring
  rwa [hvalue]

theorem zpow_eq_mul_pow (h : E ≤ q) : (2 : ℚ) ^ q = 2 ^ E * 2 ^ (q - E).toNat := by
  rw [← zpow_natCast, ← zpow_add₀ two_ne_zero]
  congr 1
  omega

/-- A quotient is computed to 53 bits, or to the smallest power of two, with what is cut off. -/
theorem divCore_eq (q₁ q₂ : ℤ) (h₁ : 0 < m₁) (h₂ : 0 < m₂) : ∃ M E acc u,
    divCore binary64 m₁ q₁ m₂ q₂ = (M, E, acc) ∧ E ≤ target M E ∧
      Represents (ExtendedMantissa.ofMantissaAndAccuracy M acc) u ∧
      u * 2 ^ E = m₁ * 2 ^ q₁ / (m₂ * 2 ^ q₂) := by
  -- The power of two of the quotient, and the shift of the dividend that leads there.
  obtain ⟨E, hE⟩ : ∃ E, E = min (q₁ - q₂) (binary64.targetExponent
    (totalExponent m₁ q₁ - totalExponent m₂ q₂)) := ⟨_, rfl⟩
  obtain ⟨k, hk⟩ : ∃ k, k = (q₁ - q₂ - E).toNat := ⟨_, rfl⟩
  have hcore : divCore binary64 m₁ q₁ m₂ q₂ = (m₁ <<< k / m₂, E,
      accuracyOfFraction (m₁ <<< k % m₂) m₂) := by
    rw [divCore, hk, hE]
  refine ⟨_, _, _, _, hcore, ?_, represents_fraction _ (Nat.mod_lt _ h₂), ?_⟩
  · change E = min (q₁ - q₂)
      (max (m₁.log2 + 1 + q₁ - (m₂.log2 + 1 + q₂) - 53) (-1074)) at hE
    by_cases hsmall : E ≤ -1074
    · exact hsmall.trans (le_target _ _)
    · -- The shift is long enough for a quotient of 53 bits.
      refine le_target_of_long ((Nat.le_div_iff_mul_le h₂).2 ?_)
      calc 2 ^ 52 * m₂ ≤ 2 ^ 52 * 2 ^ (m₂.log2 + 1) := by
            gcongr
            exact Nat.lt_log2_self.le
        _ = 2 ^ (52 + (m₂.log2 + 1)) := (pow_add ..).symm
        _ ≤ 2 ^ (m₁.log2 + k) := Nat.pow_le_pow_right (by omega) (by omega)
        _ = 2 ^ m₁.log2 * 2 ^ k := pow_add ..
        _ ≤ m₁ * 2 ^ k := by
            gcongr
            exact Nat.log2_self_le h₁.ne'
        _ = m₁ <<< k := (Nat.shiftLeft_eq ..).symm
  · have hquotient : ((m₁ <<< k / m₂ : ℕ) : ℚ) + (m₁ <<< k % m₂ : ℕ) / m₂ = m₁ * 2 ^ k / m₂ := by
      have hdivision : (m₂ : ℚ) * (m₁ <<< k / m₂ : ℕ) + (m₁ <<< k % m₂ : ℕ) = m₁ * 2 ^ k := by
        exact_mod_cast (Nat.div_add_mod (m₁ <<< k) m₂).trans (Nat.shiftLeft_eq ..)
      rw [← hdivision]
      field_simp
    have hpower : (2 : ℚ) ^ q₁ = 2 ^ q₂ * (2 ^ E * 2 ^ k) := by
      rw [hk, ← zpow_eq_mul_pow (by omega), ← zpow_add₀ two_ne_zero]
      congr 1
      omega
    rw [hquotient, hpower]
    field_simp

theorem div_eq (hc : IsCanonical m q) (ht : Rounds m q (m₁ * 2 ^ q₁ / (m₂ * 2 ^ q₂))) :
    div binary64 (.finite s₁ m₁ q₁ h₁) (.finite s₂ m₂ q₂ h₂) =
      .finite (s₁ / s₂) m q hc.pos := by
  obtain ⟨M, E, acc, u, hcore, hE, hrep, hvalue⟩ := divCore_eq q₁ q₂ h₁ h₂
  rw [div, hcore]
  exact roundWithAccuracy_eq hc hrep hE (hvalue ▸ ht)

/-! ### Digits of any length -/

/-- What rounds to a number is in the range of the numbers. -/
theorem Rounds.le_of_canonical (hc : IsCanonical m q) (ht : Rounds m q t) :
    2 ^ (-1075 : ℤ) ≤ t := by
  have hm : (1 : ℚ) ≤ m := by exact_mod_cast hc.pos
  have hq : (2 : ℚ) ^ (-1074 : ℤ) ≤ 2 ^ q := zpow_le_zpow_right₀ one_le_two hc.least
  calc (2 : ℚ) ^ (-1075 : ℤ) = 2 ^ (-1074 : ℤ) * 2⁻¹ := zpow_sub_one₀ two_ne_zero (-1074)
    _ ≤ 2 ^ q * (m - 1 / 2) := by gcongr; linarith
    _ ≤ t := by linarith [ht.low]

theorem Rounds.lt_of_canonical (hc : IsCanonical m q) (ht : Rounds m q t) :
    t < 2 ^ (1024 : ℤ) := by
  have hm : (m : ℚ) + 1 ≤ 2 ^ (53 : ℤ) := by exact_mod_cast hc.lt
  have hq : (2 : ℚ) ^ q ≤ 2 ^ (971 : ℤ) := zpow_le_zpow_right₀ one_le_two hc.most
  calc t ≤ (m + 1 / 2) * 2 ^ q := ht.high
    _ < 2 ^ (53 : ℤ) * 2 ^ q := by gcongr; linarith
    _ ≤ 2 ^ (53 : ℤ) * 2 ^ (971 : ℤ) := by gcongr
    _ = 2 ^ (1024 : ℤ) := (zpow_add₀ two_ne_zero 53 971).symm

theorem ne_zero_of_rounds (hc : IsCanonical m q) (ht : Rounds m q (n * 10 ^ p)) : n ≠ 0 := by
  rintro rfl
  have hpos : (0 : ℚ) < 2 ^ (-1075 : ℤ) := by positivity
  have := ht.le_of_canonical hc
  rw [Nat.cast_zero, zero_mul] at this
  linarith

/-- The power of ten of a number in the range is not too long. -/
theorem power_le_of_rounds (hc : IsCanonical m q) (ht : Rounds m q (n * 10 ^ p)) :
    p ≤ 2 ^ 11 := by
  by_contra hlong
  have hn : (1 : ℚ) ≤ n := by exact_mod_cast Nat.pos_of_ne_zero (ne_zero_of_rounds hc ht)
  have hlarge := calc (2 : ℚ) ^ (1024 : ℤ) ≤ 2 ^ p := zpow_le_zpow_right₀ one_le_two (by omega)
    _ ≤ 10 ^ p := zpow_le_zpow_left₀ (by omega) (by norm_num) (by norm_num)
    _ ≤ n * 10 ^ p := le_mul_of_one_le_left (by positivity) hn
  exact absurd (ht.lt_of_canonical hc) (not_lt.2 hlarge)

theorem le_power_of_rounds (hc : IsCanonical m q) (ht : Rounds m q (n * 10 ^ p)) :
    -(2 ^ 11 + n.log2) ≤ p := by
  by_contra hlong
  have hn : (n : ℚ) < 2 ^ ((n.log2 : ℤ) + 1) := by
    exact_mod_cast (Nat.lt_log2_self : n < 2 ^ (n.log2 + 1))
  have hten : (10 : ℚ) ^ p ≤ 2 ^ p := by
    have hinverse : (2 : ℚ) ^ (-p) ≤ 10 ^ (-p) :=
      zpow_le_zpow_left₀ (by omega) (by norm_num) (by norm_num)
    have hinverse := inv_anti₀ (by positivity) hinverse
    rwa [zpow_neg, zpow_neg, inv_inv, inv_inv] at hinverse
  have hsmall := calc (n : ℚ) * 10 ^ p ≤ n * 2 ^ p := by gcongr
    _ < 2 ^ ((n.log2 : ℤ) + 1) * 2 ^ p := by gcongr
    _ = 2 ^ ((n.log2 : ℤ) + 1 + p) := by rw [← zpow_add₀ two_ne_zero]
    _ ≤ 2 ^ (-1075 : ℤ) := zpow_le_zpow_right₀ one_le_two (by omega)
  exact absurd (ht.le_of_canonical hc) (not_le.2 hsmall)

/-- **A decimal number is rounded**, however long its digits are. -/
theorem ofScientific_eq (hc : IsCanonical m q) (ht : Rounds m q (n * 10 ^ p)) :
    UnpackedFloat.ofScientific binary64 n p = .finite .positive m q hc.pos := by
  have hn := ne_zero_of_rounds hc ht
  have hmost := power_le_of_rounds hc ht
  have hleast := le_power_of_rounds hc ht
  rw [UnpackedFloat.ofScientific, dif_neg hn, if_neg (by simpa using hmost),
    if_neg (by simpa using hleast)]
  split
  case isTrue hp =>
    have hpower : ((10 ^ p.toNat : ℕ) : ℚ) = 10 ^ p := by
      rw [Nat.cast_pow, ← zpow_natCast, Int.toNat_of_nonneg hp]
      norm_num
    refine mul_eq hc ?_ ?_
    · change 2 ^ 52 ≤ n <<< 53 * 10 ^ p.toNat
      rw [Nat.shiftLeft_eq]
      have := Nat.pos_of_ne_zero hn
      calc 2 ^ 52 ≤ 1 * 2 ^ 53 * 1 := by norm_num
        _ ≤ n * 2 ^ 53 * 10 ^ p.toNat := by
            gcongr
            · exact Nat.pos_of_ne_zero hn
            · exact Nat.one_le_pow _ _ (by omega)
    · change Rounds m q (((n <<< 53 : ℕ) : ℚ) * 2 ^ (-53 : ℤ) * ((10 ^ p.toNat : ℕ) * 2 ^ (0 : ℤ)))
      have hshift : ((n <<< 53 : ℕ) : ℚ) * 2 ^ (-53 : ℤ) = n := by
        rw [Nat.shiftLeft_eq, Nat.cast_mul, Nat.cast_pow, zpow_neg]
        exact mul_inv_cancel_right₀ (by norm_num) _
      rw [hshift, hpower, zpow_zero, mul_one]
      exact ht
  case isFalse hp =>
    refine div_eq hc ?_
    have hpower : ((10 ^ (-p).toNat : ℕ) : ℚ) = (10 ^ p)⁻¹ := by
      rw [Nat.cast_pow, ← zpow_natCast, Int.toNat_of_nonneg (by omega), zpow_neg]
      norm_num
    rw [hpower]
    simpa using ht

/-! ### Short digits -/

/-- Rounding a natural number first shifts it until its leading bit is in place. -/
theorem ofNat_eq (h0 : 0 < n) (hk : (k : ℤ) = 52 - n.log2) : UnpackedFloat.ofNat binary64 n =
    roundWithAccuracy binary64 .positive (n * 2 ^ k) (-k) .exact := by
  have hcmp : compare (n : ℤ) 0 = .gt := compare_gt_iff_gt.2 (by omega)
  have htarget : target n 0 = -k := by
    rw [target]
    omega
  rw [UnpackedFloat.ofNat, UnpackedFloat.ofInt, UnpackedFloat.normalize, hcmp]
  simp only [Int.toNat_natCast, UnpackedFloat.round, decreaseExponent, targetExponent_eq, htarget,
    Nat.shiftLeft_eq, zero_sub, neg_neg]

/-- Short digits are an exact binary number. -/
theorem unpack_toFloat (h0 : 0 < n) (h : n < 2 ^ 53) : ∃ m q hm,
    n.toUInt64.toFloat.toModel.unpack = .finite .positive m q hm ∧ 2 ^ 52 ≤ m ∧
      (m : ℚ) * 2 ^ q = n := by
  have hlog : n.log2 < 53 := (Nat.log2_lt h0.ne').2 h
  have hn : n.toUInt64.toNat = n := by
    simp
    omega
  obtain ⟨k, hk⟩ : ∃ k, k = 52 - n.log2 := ⟨_, rfl⟩
  have hlow : 2 ^ 52 ≤ n * 2 ^ k := calc
    2 ^ 52 = 2 ^ n.log2 * 2 ^ k := by
      rw [← pow_add]
      congr 1
      omega
    _ ≤ n * 2 ^ k := by
      gcongr
      exact Nat.log2_self_le h0.ne'
  have hhigh : n * 2 ^ k < 2 ^ 53 := calc
    n * 2 ^ k < 2 ^ (n.log2 + 1) * 2 ^ k := by
      gcongr
      exact Nat.lt_log2_self
    _ = 2 ^ 53 := by
      rw [← pow_add]
      congr 1
      omega
  have hc : IsCanonical (n * 2 ^ k) (-k) :=
    ⟨by omega, hhigh, by omega, by omega, fun _ => hlow⟩
  have hvalue : ((n * 2 ^ k : ℕ) : ℚ) * 2 ^ (-k : ℤ) = n := by
    rw [Nat.cast_mul, Nat.cast_pow, zpow_neg]
    exact mul_inv_cancel_right₀ (by positivity) _
  refine ⟨_, _, hc.pos, ?_, hlow, hvalue⟩
  change (Float.Model.pack (UnpackedFloat.ofNat binary64 n.toUInt64.toNat)).unpack = _
  rw [hn, ofNat_eq h0 (k := k) (by omega), roundWithAccuracy_eq hc (represents_exact _)
    (le_target_of_long hlow) (rounds_self _ _), unpack_pack hc]

/-- A power with an integer exponent, by natural powers on both sides. -/
theorem pow_toNat {b : ℚ} (hb : b ≠ 0) (e : ℤ) : b ^ e.toNat = b ^ e * b ^ (-e).toNat := by
  rw [← zpow_natCast, ← zpow_natCast, ← zpow_add₀ hb]
  congr 1
  omega

/-- A number is a power of ten. -/
def isPowerOfTen (k : ℕ) (x : UnpackedFloat) : Bool :=
  match x with
  | .finite .positive m q _ => m * 2 ^ q.toNat == 10 ^ k * 2 ^ (-q).toNat
  | _ => false

theorem isPowerOfTen_table : (List.range 23).all fun k =>
    isPowerOfTen k (Float.exactlyRepresentablePowersOfTen.getD k 0).toModel.unpack := by
  decide

/-- So are the first powers of ten. -/
theorem unpack_powerOfTen (h : k < Float.exactlyRepresentablePowersOfTen.size) : ∃ m q hm,
    Float.exactlyRepresentablePowersOfTen[k].toModel.unpack = .finite .positive m q hm ∧
      (m : ℚ) * 2 ^ q = 10 ^ k := by
  have htable := List.all_eq_true.1 isPowerOfTen_table k (List.mem_range.2 h)
  rw [Array.getD_eq_getD_getElem?, Array.getElem?_eq_getElem h, Option.getD_some] at htable
  unfold isPowerOfTen at htable
  split at htable
  case h_1 m q hm hunpack =>
    refine ⟨m, q, hm, hunpack, ?_⟩
    have htable : (m : ℚ) * 2 ^ q.toNat = 10 ^ k * 2 ^ (-q).toNat := by
      exact_mod_cast (beq_iff_eq.1 htable)
    rw [pow_toNat two_ne_zero, ← mul_assoc] at htable
    exact mul_right_cancel₀ (by positivity) htable
  case h_2 => exact absurd htable Bool.false_ne_true

/-- **A decimal number is read as the number that it rounds to.** -/
theorem ofDecimal_eq (hc : IsCanonical m q) (ht : Rounds m q (n * 10 ^ p)) :
    ofDecimal n p = Float.ofModel (Float.Model.pack (.finite .positive m q hc.pos)) := by
  have h0 := Nat.pos_of_ne_zero (ne_zero_of_rounds hc ht)
  cases p with
  | ofNat k =>
      change Float.ofScientific n false k = _
      rw [Float.ofScientific]
      split
      case isTrue h =>
        have hk : k < Float.exactlyRepresentablePowersOfTen.size := Nat.lt_succ_of_le h.2
        obtain ⟨m₁, q₁, h₁, hn, hlong, hvalue₁⟩ := unpack_toFloat h0 h.1
        obtain ⟨m₂, q₂, h₂, hten, hvalue₂⟩ := unpack_powerOfTen hk
        have ht : Rounds m q (m₁ * 2 ^ q₁ * (m₂ * 2 ^ q₂)) := by
          rw [hvalue₁, hvalue₂]
          exact ht
        change Float.ofModel (Float.Model.pack (mul binary64 n.toUInt64.toFloat.toModel.unpack
          Float.exactlyRepresentablePowersOfTen[k].toModel.unpack)) = _
        rw [hn, hten, mul_eq hc (hlong.trans (Nat.le_mul_of_pos_right _ h₂)) ht]
        rfl
      case isFalse h =>
        exact congrArg (fun x => Float.ofModel (.pack x)) (ofScientific_eq hc ht)
  | negSucc k =>
      change Float.ofScientific n true (k + 1) = _
      rw [Float.ofScientific]
      split
      case isTrue h =>
        have hk : k + 1 < Float.exactlyRepresentablePowersOfTen.size := Nat.lt_succ_of_le h.2
        obtain ⟨m₁, q₁, h₁, hn, hlong, hvalue₁⟩ := unpack_toFloat h0 h.1
        obtain ⟨m₂, q₂, h₂, hten, hvalue₂⟩ := unpack_powerOfTen hk
        have ht : Rounds m q (m₁ * 2 ^ q₁ / (m₂ * 2 ^ q₂)) := by
          rw [hvalue₁, hvalue₂, div_eq_mul_inv]
          exact ht
        change Float.ofModel (Float.Model.pack (div binary64 n.toUInt64.toFloat.toModel.unpack
          Float.exactlyRepresentablePowersOfTen[k + 1].toModel.unpack)) = _
        rw [hn, hten, div_eq hc ht]
        rfl
      case isFalse h =>
        exact congrArg (fun x => Float.ofModel (.pack x)) (ofScientific_eq hc ht)

end Reckoner.Binary64
