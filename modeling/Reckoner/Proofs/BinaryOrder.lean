/-
**Order and distance of binary numbers.**

Finite binary numbers are compared by their signs, then by their powers of two, and then by their
significands.  Since a significand is as long as its power of two allows, this is the order of the
exact values.

A difference is rounded as a magnitude, with its sign beside it, and also the bits of a number hold
the sign apart from the rest.  So two numbers have the same distance in both orders, infinities and
undefined numbers included, and a finite number has none from itself.

Main results:

* `Reckoner.Binary64.compare_canonical` — powers and significands are in the order of the values;
* `Reckoner.Binary64.le_iff_of_reading` — **finite numbers are in the order of their exact values**;
* `Reckoner.Binary64.sub_self_of_reading` — **a finite number minus itself is zero**;
* `Reckoner.Binary64.abs_difference_comm` — **the distance of two numbers is the same in both orders**.
-/

import Reckoner.Proofs.NearestBinary

set_option autoImplicit false

namespace Reckoner.Binary64

open Float.Model (UnpackedFloat Format)
open Float.Model.UnpackedFloat
open Float.Model.Format (binary64)

variable {m M : ℕ} {e E : ℤ} {p q v : ℚ} {x y : Float}

/-! ### Order -/

/-- Powers of two and significands are in the order of the values. -/
theorem compare_canonical (hc : IsCanonical m e) (hC : IsCanonical M E) :
    (compare e E).then (compare m M) = compare (m * 2 ^ e : ℚ) (M * 2 ^ E) := by
  have lt_of_power {m M : ℕ} {e E : ℤ} (hc : IsCanonical m e) (hC : IsCanonical M E) (h : e < E) :
      (m * 2 ^ e : ℚ) < M * 2 ^ E := by
    obtain ⟨hbelow, hlong⟩ := lt_of_power_lt hc hC h
    calc (m * 2 ^ e : ℚ) ≤ (2 ^ 52 - 1 / 2) * 2 ^ E := hbelow
      _ < 2 ^ 52 * 2 ^ E := by gcongr; linarith
      _ ≤ M * 2 ^ E := by gcongr
  rcases lt_trichotomy e E with hlt | rfl | hgt
  · rw [compare_lt_iff_lt.2 hlt, compare_lt_iff_lt.2 (lt_of_power hc hC hlt)]
    rfl
  · have hpow : (0 : ℚ) < 2 ^ e := by positivity
    rw [compare_eq_iff_eq.2 rfl, Ordering.then]
    rcases lt_trichotomy m M with hlt | rfl | hgt
    · have hvalue : (m * 2 ^ e : ℚ) < M * 2 ^ e := by gcongr
      rw [compare_lt_iff_lt.2 hlt, compare_lt_iff_lt.2 hvalue]
    · rw [compare_eq_iff_eq.2 rfl, compare_eq_iff_eq.2 rfl]
    · have hvalue : (M * 2 ^ e : ℚ) < m * 2 ^ e := by gcongr
      rw [compare_gt_iff_gt.2 hgt, compare_gt_iff_gt.2 hvalue]
  · rw [compare_gt_iff_gt.2 hgt, compare_gt_iff_gt.2 (lt_of_power hC hc hgt)]
    rfl

theorem swap_compare (a b : ℚ) : (compare a b).swap = compare (-a) (-b) := by
  rcases lt_trichotomy a b with hlt | rfl | hgt
  · rw [compare_lt_iff_lt.2 hlt, compare_gt_iff_gt.2 (neg_lt_neg hlt)]
    rfl
  · rw [compare_eq_iff_eq.2 rfl, compare_eq_iff_eq.2 rfl]
    rfl
  · rw [compare_gt_iff_gt.2 hgt, compare_lt_iff_lt.2 (neg_lt_neg hgt)]
    rfl

/-- A number that is neither undefined nor infinite has an exact value. -/
theorem exists_reading_of_isFinite (h : Arithmetic.isFinite x = true) :
    ∃ q, reading x = .finite q := by
  change (reading x).isFinite = true at h
  cases hx : reading x with
  | undefined => simp [hx, Reading.isFinite, Reading.value?] at h
  | infinite s => simp [hx, Reading.isFinite, Reading.value?] at h
  | finite q => exact ⟨q, rfl⟩

/-- The parts of a finite number. -/
theorem unpack_of_reading (h : reading x = .finite v) :
    (∃ s, x.toModel.unpack = .zero s ∧ v = 0) ∨ ∃ s m e hm, x.toModel.unpack = .finite s m e hm ∧
      IsCanonical m e ∧ v = if s == .negative then -(m * 2 ^ e : ℚ) else m * 2 ^ e := by
  cases hx : x.toModel.unpack with
  | notANumber => simp [reading, hx] at h
  | infinity s => simp [reading, hx] at h
  | zero s => exact .inl ⟨s, rfl, by simpa [reading, hx] using h.symm⟩
  | finite s m e hm =>
      refine .inr ⟨s, m, e, hm, rfl, isCanonical_of_unpack hx, ?_⟩
      simpa [reading, hx, dyadic_eq] using h.symm

/-- Finite numbers are compared like their exact values. -/
theorem compare_unpack (hx : reading x = .finite p) (hy : reading y = .finite q) :
    UnpackedFloat.compare x.toModel.unpack y.toModel.unpack = some (compare p q) := by
  have hpos {m : ℕ} {e : ℤ} (hc : IsCanonical m e) : (0 : ℚ) < m * 2 ^ e :=
    mul_pos (by exact_mod_cast hc.pos) (zpow_pos two_pos e)
  have hneg {m : ℕ} {e : ℤ} (hc : IsCanonical m e) : -(m * 2 ^ e : ℚ) < 0 :=
    neg_lt_zero.2 (hpos hc)
  rcases unpack_of_reading hx with ⟨s, hs, rfl⟩ | ⟨s, m, e, hm, hs, hc, rfl⟩ <;>
    rcases unpack_of_reading hy with ⟨t, ht, rfl⟩ | ⟨t, M, E, hM, ht, hC, rfl⟩ <;> rw [hs, ht]
  · rw [compare_eq_iff_eq.2 rfl]
    rfl
  · cases t with
    | negative => exact congrArg some (compare_gt_iff_gt.2 (hneg hC)).symm
    | positive => exact congrArg some (compare_lt_iff_lt.2 (hpos hC)).symm
  · cases s with
    | negative => exact congrArg some (compare_lt_iff_lt.2 (hneg hc)).symm
    | positive => exact congrArg some (compare_gt_iff_gt.2 (hpos hc)).symm
  · cases s <;> cases t
    case negative.negative =>
      change some ((compare e E).then (compare m M)).swap =
        some (compare (-(m * 2 ^ e : ℚ)) (-(M * 2 ^ E)))
      rw [compare_canonical hc hC, swap_compare]
    case negative.positive =>
      exact congrArg some (compare_lt_iff_lt.2 ((hneg hc).trans (hpos hC))).symm
    case positive.negative =>
      exact congrArg some (compare_gt_iff_gt.2 ((hneg hC).trans (hpos hc))).symm
    case positive.positive => exact congrArg some (compare_canonical hc hC)

/-- **Finite numbers are in the order of their exact values.** -/
theorem le_iff_of_reading (hx : reading x = .finite p) (hy : reading y = .finite q) :
    x ≤ y ↔ p ≤ q := by
  have hle : x ≤ y ↔ UnpackedFloat.le x.toModel.unpack y.toModel.unpack = true :=
    decide_eq_true_iff
  rw [hle, UnpackedFloat.le, compare_unpack hx hy, Option.any_some]
  rw [← Ordering.ne_gt_iff_isLE]
  exact compare_le_iff_le

/-! ### Distance -/

/-- **A finite number minus itself is zero.** -/
theorem sub_self_of_reading (h : reading x = .finite v) :
    x - x = Float.ofModel (Float.Model.pack (.zero .positive)) := by
  change Float.ofModel (Float.Model.pack (UnpackedFloat.sub binary64 x.toModel.unpack
    x.toModel.unpack)) = _
  rcases unpack_of_reading h with ⟨s, hx, -⟩ | ⟨s, m, e, hm, hx, -, -⟩
  · rw [hx]
    cases s <;> rfl
  · rw [hx, UnpackedFloat.sub]
    dsimp only
    rw [Int.sub_self]
    rfl

section Magnitudes

variable {f : Format}

/-- The sign of a result has no part in its rounding. -/
theorem abs_roundWithAccuracy (s t : Sign) (m : ℕ) (e : ℤ) (acc : Accuracy) :
    (roundWithAccuracy f s m e acc).abs = (roundWithAccuracy f t m e acc).abs := by
  unfold roundWithAccuracy
  dsimp only
  split <;> rfl

theorem abs_normalize_neg (k e : ℤ) (s : Sign) :
    (UnpackedFloat.normalize f (-k) e s).abs = (UnpackedFloat.normalize f k e s).abs := by
  unfold UnpackedFloat.normalize
  rcases lt_trichotomy k 0 with hlt | rfl | hgt
  · rw [compare_lt_iff_lt.2 hlt, compare_gt_iff_gt.2 (neg_pos.2 hlt)]
    exact abs_roundWithAccuracy _ _ _ _ _
  · rfl
  · rw [compare_gt_iff_gt.2 hgt, compare_lt_iff_lt.2 (neg_lt_zero.2 hgt)]
    dsimp only
    rw [neg_neg]
    exact abs_roundWithAccuracy _ _ _ _ _

/-- A difference has the magnitude of the difference in the other order. -/
theorem abs_sub_unpacked_comm (a b : UnpackedFloat) : (sub f a b).abs = (sub f b a).abs := by
  cases a with
  | notANumber => cases b <;> rfl
  | infinity s =>
      cases b with
      | infinity t => cases s <;> cases t <;> rfl
      | notANumber | zero | finite => rfl
  | zero s =>
      cases b with
      | zero t => cases s <;> cases t <;> rfl
      | notANumber | infinity | finite => rfl
  | finite s m e hm =>
      cases b with
      | finite t M E hM =>
          unfold sub
          dsimp only
          rw [min_comm E e, ← neg_sub, abs_normalize_neg]
      | notANumber | infinity | zero => rfl

/-- The bits of a number hold its sign apart from the rest. -/
theorem abs_unpack_packComponents (s t : Sign) (e : BitVec f.exponentBits)
    (m : BitVec f.mantissaBitsWithoutImplicit) :
    (unpack f (packComponents f s e m)).abs = (unpack f (packComponents f t e m)).abs := by
  simp only [unpack, unpackMantissa_packComponents, unpackExponent_packComponents]
  split
  · split <;> rfl
  · split
    · split <;> rfl
    · rfl

/-- A finite number is put together from its sign and fields that the sign has no part in. -/
theorem exists_pack_finite (e : ℤ) (hm : 0 < m) : ∃ E F, ∀ s,
    pack f (.finite s m e hm) = packComponents f s E F := by
  by_cases hlarge :
      2 ^ f.exponentBits ≤ (e + f.exponentBias + f.mantissaBitsWithoutImplicit).toNat + 1
  · exact ⟨_, _, fun s => if_pos hlarge⟩
  · by_cases hlong : m.log2 + 1 = f.mantissaBits
    · exact ⟨_, _, fun s => (if_neg hlarge).trans (if_pos hlong)⟩
    · exact ⟨_, _, fun s => (if_neg hlarge).trans (if_neg hlong)⟩

/-- The magnitude of what is put together is that of the number without its sign. -/
theorem abs_unpack_pack (a : UnpackedFloat) : (unpack f (pack f a)).abs =
    (unpack f (pack f a.abs)).abs := by
  cases a with
  | notANumber => rfl
  | infinity s => exact abs_unpack_packComponents _ _ _ _
  | zero s => exact abs_unpack_packComponents _ _ _ _
  | finite s m e hm =>
      obtain ⟨E, F, hpack⟩ := exists_pack_finite (f := f) e hm
      change (unpack f (pack f (.finite s m e hm))).abs =
        (unpack f (pack f (.finite .positive m e hm))).abs
      rw [hpack, hpack]
      exact abs_unpack_packComponents _ _ _ _

end Magnitudes

/-- **The distance of two numbers is the same in both orders.** -/
theorem abs_difference_comm (x y : Float) : (x - y).abs = (y - x).abs := by
  have hmagnitude : (unpack binary64 (pack binary64 (sub binary64 x.toModel.unpack
      y.toModel.unpack))).abs = (unpack binary64 (pack binary64 (sub binary64 y.toModel.unpack
      x.toModel.unpack))).abs := by
    rw [abs_unpack_pack, abs_sub_unpacked_comm, ← abs_unpack_pack]
  exact congrArg (fun a => Float.ofModel (Float.Model.pack a)) hmagnitude

end Reckoner.Binary64
