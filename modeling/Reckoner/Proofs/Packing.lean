/-
**The form of a binary number.**

The bits of a number are a sign, eleven bits of exponent and fifty-two of significand.  Taken apart,
a finite number has a significand of at most 53 bits that is as long as the smallest exponent
allows.  Taking apart and putting together undo each other, so a finite number is determined by its
sign, its significand and its power of two.

Main definitions:

* `Reckoner.Binary64.IsCanonical` — the significands and powers of two of finite numbers;
* `Reckoner.Binary64.Stored` — the bits that hold them.

Main results:

* `Reckoner.Binary64.isCanonical_of_unpack` — finite numbers are canonical;
* `Reckoner.Binary64.unpack_pack` — a canonical number is taken apart into what it was put together
  from;
* `Reckoner.Binary64.pack_unpack` — **a number is put together from what it is taken apart into**.
-/

import Mathlib
import Reckoner.Number.Binary64

set_option autoImplicit false

namespace Reckoner.Binary64

open Float.Model (UnpackedFloat)
open Float.Model.UnpackedFloat
open Float.Model.Format (binary64)

variable {s : Sign} {m : ℕ} {q : ℤ} {hm : 0 < m}

/-- A significand and a power of two as a finite number holds them: 53 bits, or fewer with the
smallest power. -/
structure IsCanonical (m : ℕ) (q : ℤ) : Prop where
  pos : 0 < m
  lt : m < 2 ^ 53
  least : -1074 ≤ q
  most : q ≤ 971
  normal : q ≠ -1074 → 2 ^ 52 ≤ m

theorem IsCanonical.log2_le (h : IsCanonical m q) : m.log2 ≤ 52 := by
  have := (Nat.log2_lt h.pos.ne').2 h.lt
  omega

theorem IsCanonical.log2_eq (h : IsCanonical m q) (hq : q ≠ -1074) : m.log2 = 52 := by
  have := (Nat.le_log2 h.pos.ne').2 (h.normal hq)
  have := h.log2_le
  omega

/-! ### Bits -/

theorem exponentBias_binary64 : binary64.exponentBias = 1023 := rfl

/-- The significand of a number with the leading bit that is not stored. -/
theorem toNat_one_append (f : BitVec 52) : (1#1 ++ f).toNat = 2 ^ 52 + f.toNat := by
  rw [BitVec.toNat_append, ← Nat.shiftLeft_add_eq_or_of_lt f.isLt]
  simp [Nat.shiftLeft_eq]

/-! ### Fields -/

/-- The fields of exponent and significand that hold a significand and a power of two: the
exponent 0 stands for the smallest power and a significand without the leading bit, the
exponent 2047 for none. -/
inductive Stored : BitVec 11 → BitVec 52 → ℕ → ℤ → Prop
  | short {f : BitVec 52} (hf : 0 < f.toNat) : Stored 0#11 f f.toNat (-1074)
  | long {e : BitVec 11} (f : BitVec 52) (h0 : 0 < e.toNat) (h : e.toNat < 2047) :
      Stored e f (2 ^ 52 + f.toNat) (e.toNat - 1075)

theorem Stored.isCanonical {e : BitVec 11} {f : BitVec 52} (h : Stored e f m q) :
    IsCanonical m q := by
  cases h with
  | short hf => exact ⟨hf, by omega, by omega, by omega, by omega⟩
  | long f h0 h => exact ⟨by omega, by omega, by omega, by omega, by omega⟩

/-- Canonical significands and powers can be stored. -/
theorem IsCanonical.exists_stored (h : IsCanonical m q) : ∃ e f, Stored e f m q := by
  obtain ⟨hpos, hlt, hleast, hmost, hnormal⟩ := h
  rcases lt_or_ge m (2 ^ 52) with hshort | hlong
  · have hf : (BitVec.ofNat 52 m).toNat = m := by simp; omega
    have hq : q = -1074 := by omega
    have hstored := Stored.short (f := BitVec.ofNat 52 m) (by omega)
    rw [hf, ← hq] at hstored
    exact ⟨_, _, hstored⟩
  · have hf : (BitVec.ofNat 52 (m - 2 ^ 52)).toNat = m - 2 ^ 52 := by simp; omega
    have he : (BitVec.ofNat 11 (q + 1075).toNat).toNat = (q + 1075).toNat := by simp; omega
    have hstored := Stored.long (e := BitVec.ofNat 11 (q + 1075).toNat)
      (BitVec.ofNat 52 (m - 2 ^ 52)) (by omega) (by omega)
    have hq : ((q + 1075).toNat : ℤ) - 1075 = q := by omega
    rw [hf, he, hq, Nat.add_sub_cancel' hlong] at hstored
    exact ⟨_, _, hstored⟩

/-- What is stored is put together into its fields. -/
theorem Stored.pack {e : BitVec 11} {f : BitVec 52} (h : Stored e f m q) :
    UnpackedFloat.pack binary64 (.finite s m q hm) = packComponents binary64 s e f := by
  have hq : (q + (1023 : ℕ) + (52 : ℕ)).toNat + 1 < 2048 := by
    have := h.isCanonical.most
    omega
  have hlog := fun k => Nat.le_log2 (k := k) hm.ne'
  rw [UnpackedFloat.pack]
  change (if 2048 ≤ (q + (1023 : ℕ) + (52 : ℕ)).toNat + 1 then _
    else if m.log2 + 1 = 53 then _ else _) = _
  rw [if_neg (by omega)]
  cases h with
  | short hf =>
      have := hlog 52
      rw [if_neg (by omega)]
      simp
  | long f h0 h =>
      have := hlog 52
      have := hlog 53
      rw [if_pos (by omega)]
      congr 1
      · apply BitVec.eq_of_toNat_eq
        simp [exponentBias_binary64]
        omega
      · apply BitVec.eq_of_toNat_eq
        simp [f.isLt]

/-- What is stored is taken apart into what it holds. -/
theorem Stored.unpack {e : BitVec 11} {f : BitVec 52} (h : Stored e f m q) :
    UnpackedFloat.unpack binary64 (packComponents binary64 s e f) = .finite s m q hm := by
  rw [UnpackedFloat.unpack]
  simp only [unpackMantissa_packComponents, unpackExponent_packComponents,
    unpackSign_packComponents, Sign.ofBitVec_toBitVec]
  cases h with
  | short hf =>
      have hzero : f ≠ 0#52 := by
        rintro rfl
        simp at hf
      rw [if_neg (by decide), if_pos rfl, dif_neg hzero]
      rfl
  | long f h0 h =>
      have hones : e ≠ -1#11 := by
        rintro rfl
        simp at h
      have hzero : e ≠ 0#11 := by
        rintro rfl
        simp at h0
      rw [if_neg hones, if_neg hzero]
      simp only [toNat_one_append]
      rfl

/-- All other fields are those of the infinities and the undefined number, and of the zeros. -/
theorem ones_or_zero_or_stored (e : BitVec 11) (f : BitVec 52) :
    e = -1#11 ∨ e = 0#11 ∧ f = 0#52 ∨ ∃ m q, Stored e f m q := by
  by_cases hones : e = -1#11
  · exact .inl hones
  · right
    have hones : e.toNat ≠ 2047 := fun h => hones (BitVec.eq_of_toNat_eq h)
    by_cases hzero : e = 0#11
    · by_cases hf : f = 0#52
      · exact .inl ⟨hzero, hf⟩
      · have hf : f.toNat ≠ 0 := fun h => hf (BitVec.eq_of_toNat_eq h)
        subst hzero
        exact .inr ⟨_, _, .short (by omega)⟩
    · have hzero : e.toNat ≠ 0 := fun h => hzero (BitVec.eq_of_toNat_eq h)
      exact .inr ⟨_, _, .long f (by omega) (by omega)⟩

/-- Only stored fields are taken apart into a finite number. -/
theorem Stored.of_unpack {e : BitVec 11} {f : BitVec 52} {s' : Sign}
    (h : UnpackedFloat.unpack binary64 (packComponents binary64 s' e f) = .finite s m q hm) :
    Stored e f m q := by
  rcases ones_or_zero_or_stored e f with rfl | ⟨rfl, rfl⟩ | ⟨m', q', hstored⟩
  · rw [UnpackedFloat.unpack] at h
    simp only [unpackMantissa_packComponents, unpackExponent_packComponents, if_pos] at h
    split at h <;> cases h
  · cases unpack_packedZero.symm.trans h
  · have hunpack : UnpackedFloat.unpack binary64 (packComponents binary64 s' e f) =
        .finite s' m' q' hstored.isCanonical.pos := hstored.unpack
    cases hunpack.symm.trans h
    exact hstored

/-! ### Numbers -/

/-- The significand and the power of a finite number are canonical. -/
theorem isCanonical_of_unpack {x : Float} (h : x.toModel.unpack = .finite s m q hm) :
    IsCanonical m q := by
  obtain ⟨b, hb⟩ : ∃ b : BitVec binary64.numBits, b = x.toModel.toBits.toBitVec := ⟨_, rfl⟩
  rw [Float.Model.unpack, ← hb, ← packComponents_unpackSign_unpackExponent_unpackMantissa b] at h
  exact (Stored.of_unpack h).isCanonical

/-- A canonical number is taken apart into what it was put together from. -/
theorem unpack_pack (h : IsCanonical m q) :
    (Float.Model.pack (.finite s m q hm)).unpack = .finite s m q hm := by
  obtain ⟨e, f, hstored⟩ := h.exists_stored
  change UnpackedFloat.unpack binary64 (UnpackedFloat.pack binary64 (.finite s m q hm)) = _
  rw [hstored.pack, hstored.unpack]

/-- **A number is put together from what it is taken apart into.** -/
theorem pack_unpack (x : Float) : Float.ofModel (Float.Model.pack x.toModel.unpack) = x :=
  Float.ofBits_toBits x

end Reckoner.Binary64
