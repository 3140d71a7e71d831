/-
**Powers of one base.**

In a product the powers of one base are merged into one, and a quotient of two powers of one base
is a power.  The exponents need not be numbers; what a merged power has for a value is decided by
the values of its base and its exponents, and zero as a base needs care.

Main definitions:

* `Reckoner.Expr.KeepsGrades` — a transformation that keeps values and degrees;
* `Reckoner.Expr.PowersGraded` — the value and the degrees of a list of powers.

Main results:

* `Reckoner.Expr.Graded.mergeBases`, `Reckoner.Expr.Graded.cancelBases` — **powers of one base are
  multiplied and divided by their exponents**;
* `Reckoner.Expr.Graded.mergeExponents` — a power of a power;
* `Reckoner.Expr.Graded.simplifyProduct` — **a product with its bases merged keeps its value**.
-/

import Reckoner.Proofs.Collecting
import Reckoner.Proofs.Rules

set_option autoImplicit false

namespace Reckoner.Expr

open Arithmetic (isZero isOne integer?)

variable {κ : Type} [Number κ] {K : Type} [Field K]
variable {I : Functions K} {σ : Scope K} {g : Grading}
variable {a b e e' : Expr κ} {u v w : K} {d d' q q' i j k l : ℕ}
variable {again : Expr κ → Expr κ}

/-- A transformation that keeps values and degrees. -/
def KeepsGrades (I : Functions K) (σ : Scope K) (again : Expr κ → Expr κ) : Prop :=
  ∀ (g : Grading) (e : Expr κ) (v : K) (d q : ℕ), Graded 1 I σ g e v d q →
    Graded 1 I σ g (again e) v d q

/-! ### Powers of one base -/

section Powers

theorem natAbs_add_mul_le (r s : ℤ) (i : ℕ) :
    (r + s).natAbs * i ≤ r.natAbs * i + s.natAbs * i := by
  rw [← add_mul]
  exact Nat.mul_le_mul_right _ (Int.natAbs_add_le r s)

theorem toNat_add_mul_le (r s : ℤ) (i : ℕ) :
    (r + s).toNat * i ≤ r.toNat * i + s.toNat * i := by
  rw [← add_mul]
  exact Nat.mul_le_mul_right _ (by omega)

/-- A product is negative if one of its factors is. -/
theorem toNat_neg_mul_le (r s : ℤ) :
    (-(r * s)).toNat ≤ s.natAbs * (-r).toNat + (-s).toNat * r.natAbs := by
  rcases le_total 0 r with hr | hr <;> rcases le_total 0 s with hs | hs
  · have := mul_nonneg hr hs
    omega
  · have hprod : -(r * s) = (-s).toNat * r.natAbs := by
      rw [Int.toNat_of_nonneg (by omega), Int.natAbs_of_nonneg hr]
      ring
    omega
  · have hprod : -(r * s) = s.natAbs * (-r).toNat := by
      rw [Int.toNat_of_nonneg (by omega), Int.natAbs_of_nonneg hs]
      ring
    omega
  · have := mul_nonneg_of_nonpos_of_nonpos hr hs
    omega

theorem isConst_of_baseAndExponent (h : e.baseAndExponent.1.isConst = false) :
    e.isConst = false := by
  cases e with
  | const c => exact h
  | _ => rfl

/-- Every expression is a power of its base. -/
theorem Graded.baseAndExponent [ExactNumber κ] (h : Graded 1 I σ g e v d q) (hd : 1 ≤ d) :
    Graded 1 I σ g (.pow e.baseAndExponent.1 e.baseAndExponent.2) v d q := by
  unfold Expr.baseAndExponent
  split
  · exact h
  · have := h.pow (.ofInt (κ := κ) 1 Grading.polynomial.admits_zero) (.inr Int.one_nonneg)
      (by simp) (Nat.zero_le _) (by simp) hd h.admits
    simpa using this

variable [CharZero K]

/-- Two powers of one base are powers of one value, in which the base has one degree. -/
theorem Graded.exists_base {m n : Expr κ} (h : Graded 1 I σ g (.pow a m) u d q)
    (h' : Graded 1 I σ g (.pow a n) v d' q') :
    ∃ (x : K) (r s : ℤ) (i k j l j' l' : ℕ), Graded 1 I σ g a x i k ∧
      Graded 1 I σ .polynomial m r j l ∧ Graded 1 I σ .polynomial n s j' l' ∧
      u = x ^ r ∧ v = x ^ s ∧ (x ≠ 0 ∨ 0 ≤ r) ∧ (x ≠ 0 ∨ 0 ≤ s) ∧
      (r.natAbs * i ≤ d ∧ s.natAbs * i ≤ d' ∧ 1 ≤ d) ∧
      r.natAbs * k + (-r).toNat * i ≤ q ∧ s.natAbs * k + (-s).toNat * i ≤ q' := by
  cases h with
  | @pow _ _ _ x r i j k l _ _ ha hm hr hi _ hk hd _ =>
      cases h' with
      | @pow _ _ _ y s i' j' k' l' _ _ ha' hn hs hi' _ hk' _ _ =>
          obtain rfl := ha.unique ha'
          -- the base takes the lesser of its two degrees, so that both bounds hold of it
          have left (t x y : ℕ) := Nat.mul_le_mul_left t (min_le_left x y)
          have right (t x y : ℕ) := Nat.mul_le_mul_left t (min_le_right x y)
          have := left r.natAbs i i'
          have := left r.natAbs k k'
          have := left (-r).toNat i i'
          have := right s.natAbs i i'
          have := right s.natAbs k k'
          have := right (-s).toNat i i'
          exact ⟨x, r, s, min i i', min k k', j, l, j', l', ha.inf ha', hm, hn, rfl, rfl, hr, hs,
            ⟨by omega, by omega, hd⟩, by omega, by omega⟩

/-- **Powers of one base are multiplied by adding their exponents.** -/
theorem Graded.mergeBases (hagain : KeepsGrades I σ again) {m n : Expr κ}
    (h : Graded 1 I σ g (.pow a m) u d q) (h' : Graded 1 I σ g (.pow a n) v d' q')
    (hb : g.Admits (d + d') (q + q')) :
    Graded 1 I σ g (.pow a (again (.add m n))) (u * v) (d + d') (q + q') := by
  obtain ⟨x, r, s, i, k, j, l, j', l', ha, hm, hn, rfl, rfl, hr, hs, ⟨hi, hi', hd⟩, hk, hk'⟩ :=
    h.exists_base h'
  have hsum : Graded 1 I σ .polynomial (.add m n) ((r + s : ℤ) : K) (max 1 (max j j'))
      (l + l') := by
    rw [Int.cast_add]
    exact hm.add hn (le_max_right _ _) le_rfl (le_max_left _ _)
      (max_lt one_lt_degreeBound (max_lt hm.admits.lt hn.admits.lt))
  have := natAbs_add_mul_le r s i
  have := natAbs_add_mul_le r s k
  have hneg := toNat_add_mul_le (-r) (-s) i
  rw [← neg_add] at hneg
  have hpow (hne : x ≠ 0 ∨ 0 ≤ r + s) := ha.pow (d := d + d') (q := q + q')
    (hagain _ _ _ _ _ hsum) hne (by omega) (by omega) (by omega) (by omega) hb
  by_cases hx : x = 0
  · -- both exponents are non-negative
    have hr := hr.resolve_left (not_not_intro hx)
    have hs := hs.resolve_left (not_not_intro hx)
    rw [← zpow_add' (by omega)]
    exact hpow (.inr (by omega))
  · rw [← zpow_add₀ hx]
    exact hpow (.inl hx)

/-- **Powers of one base are divided by subtracting their exponents.** -/
theorem Graded.cancelBases (hagain : KeepsGrades I σ again) {m n : Expr κ}
    (h : Graded 1 I σ g (.pow a m) u d q) (h' : Graded 1 I σ g (.pow a n) v d' q') (hv : v ≠ 0)
    (hb : g.Admits (d + d') (q + q' + d')) :
    Graded 1 I σ g (.pow a (again (.sub m n))) (u / v) (d + d') (q + q' + d') := by
  obtain ⟨x, r, s, i, k, j, l, j', l', ha, hm, hn, rfl, rfl, hr, -, ⟨hi, hi', hd⟩, hk, hk'⟩ :=
    h.exists_base h'
  have hdiff : Graded 1 I σ .polynomial (.sub m n) ((r - s : ℤ) : K) (max 1 (max j j'))
      (l + l') := by
    rw [Int.cast_sub]
    exact hm.sub hn (le_max_right _ _) le_rfl (le_max_left _ _)
      (max_lt one_lt_degreeBound (max_lt hm.admits.lt hn.admits.lt))
  have habs := natAbs_add_mul_le r (-s)
  rw [← sub_eq_add_neg, Int.natAbs_neg] at habs
  have := habs i
  have := habs k
  have hneg := toNat_add_mul_le (-r) s i
  rw [neg_add_eq_sub, ← neg_sub] at hneg
  have := Nat.mul_le_mul_right i (show s.toNat ≤ s.natAbs by omega)
  have hpow (hne : x ≠ 0 ∨ 0 ≤ r - s) := ha.pow (d := d + d') (q := q + q' + d')
    (hagain _ _ _ _ _ hdiff) hne (by omega) (by omega) (by omega) (by omega) hb
  by_cases hx : x = 0
  · -- the denominator is not zero, so that its exponent is
    have hr := hr.resolve_left (not_not_intro hx)
    have hs : s = 0 := by
      by_contra hs
      exact hv (by rw [hx, zero_zpow s hs])
    have heq : x ^ r / x ^ s = x ^ (r - s) := by simp [hs]
    rw [heq]
    exact hpow (.inr (by omega))
  · rw [← zpow_sub₀ hx]
    exact hpow (.inl hx)

omit [CharZero K] in
/-- The exponent of a power of a power is multiplied by a number. -/
theorem Graded.mergeExponents [ExactNumber κ] (hagain : KeepsGrades I σ again) {m : Expr κ}
    {c : κ} (h : Graded 1 I σ g (.pow (.pow a m) (.const c)) v d q) :
    Graded 1 I σ g (.pow a (again (.mul m (.const c)))) v d q := by
  cases h with
  | @pow _ _ _ _ s i' _ k' _ _ _ hpow hc hne hi' _ hk' hd hb =>
      cases hpow with
      | @pow _ _ _ x r i j k l _ _ ha hm hr hi _ hk _ _ =>
          have hprod : Graded 1 I σ .polynomial (.mul m (.const c)) ((r * s : ℤ) : K) (max 1 j)
              l := by
            rw [Int.cast_mul, hasValue_const_iff.1 hc.hasValue]
            exact hm.mul (.const c Grading.polynomial.admits_zero) (le_max_right _ _) le_rfl
              (le_max_left _ _) (max_lt one_lt_degreeBound hm.admits.lt)
          have hdegree : (r * s).natAbs * i ≤ d := by
            calc (r * s).natAbs * i = s.natAbs * (r.natAbs * i) := by
                  rw [Int.natAbs_mul, mul_comm r.natAbs, mul_assoc]
              _ ≤ s.natAbs * i' := Nat.mul_le_mul_left _ hi
              _ ≤ d := hi'
          have hdens : (r * s).natAbs * k + (-(r * s)).toNat * i ≤ q := by
            calc (r * s).natAbs * k + (-(r * s)).toNat * i
                ≤ (r * s).natAbs * k + (s.natAbs * (-r).toNat + (-s).toNat * r.natAbs) * i :=
                  Nat.add_le_add_left (Nat.mul_le_mul_right _ (toNat_neg_mul_le r s)) _
              _ = s.natAbs * (r.natAbs * k + (-r).toNat * i) + (-s).toNat * (r.natAbs * i) := by
                  rw [Int.natAbs_mul]
                  ring
              _ ≤ s.natAbs * k' + (-s).toNat * i' :=
                  Nat.add_le_add (Nat.mul_le_mul_left _ hk) (Nat.mul_le_mul_left _ hi)
              _ ≤ q := hk'
          have hbase : x ≠ 0 ∨ 0 ≤ r * s := by
            by_cases hx : x = 0
            · have hr := hr.resolve_left (not_not_intro hx)
              rcases hne with hne | hs
              · -- the inner power is not zero, so that its exponent is
                have : r = 0 := by
                  by_contra hr0
                  exact hne (by rw [hx, zero_zpow r hr0])
                exact .inr (by rw [this, zero_mul])
              · exact .inr (mul_nonneg hr hs)
            · exact .inl hx
          rw [← zpow_mul]
          exact ha.pow (hagain _ _ _ _ _ hprod) hbase hdegree (by omega) hdens hd hb

end Powers

/-! ### Products -/

section Products

variable [CharZero K] [ExactNumber κ] {ps : List (Expr κ × Expr κ)} {es : List (Expr κ)} {c : κ}

/-- The value and the degrees of a list of powers. -/
def PowersGraded (I : Functions K) (σ : Scope K) (g : Grading) (ps : List (Expr κ × Expr κ))
    (v : K) (d q : ℕ) : Prop :=
  ProductGraded 1 I σ g (ps.map fun p => .pow p.1 p.2) v d q

omit [CharZero K] [ExactNumber κ] in
theorem Graded.one_le_pow (h : Graded 1 I σ g (.pow a b) v d q) : 1 ≤ d := h.one_le rfl

/-- A power is multiplied with a list of powers. -/
theorem PowersGraded.mergePower (hagain : KeepsGrades I σ again)
    (hps : PowersGraded I σ g ps u i k) (h : Graded 1 I σ g (.pow a b) v j l)
    (hb : g.Admits (i + j) (k + l)) :
    PowersGraded I σ g (mergePower again a b ps) (u * v) (i + j) (k + l) := by
  induction ps generalizing u i k with
  | nil =>
      cases hps with
      | nil =>
          rw [one_mul]
          exact (ProductGraded.single h h.one_le_pow).mono (Nat.le_add_left _ _)
            (Nat.le_add_left _ _)
  | cons p ps ih =>
      obtain ⟨base, exponent⟩ := p
      cases hps with
      | cons hp hone hrest hi hk =>
          simp only [Expr.mergePower]
          split
          · rename_i hsame
            obtain rfl := same_iff_eq.1 hsame
            have hmerged := hp.mergeBases hagain h (hb.mono (by omega) (by omega))
            rw [mul_right_comm]
            exact .cons hmerged (by omega) hrest (by omega) (by omega)
          · rw [mul_assoc]
            exact .cons hp hone (ih hrest (hb.mono (by omega) (by omega))) (by omega) (by omega)

/-- The factors of a product are merged into its powers. -/
theorem PowersGraded.mergeFactors (hagain : KeepsGrades I σ again)
    (hps : PowersGraded I σ g ps u i k) (hes : ProductGraded 0 I σ g es v j l)
    (hb : g.Admits (i + j) (k + l)) :
    ∃ w, PowersGraded I σ g (mergeFactors again c ps es).2 w (i + j) (k + l) ∧
      valueIn K (Expr.mergeFactors again c ps es).1 * w = valueIn K c * u * v := by
  -- the number and the powers collected so far carry the value of the factors already seen
  induction hes generalizing c ps u i k with
  | nil =>
      exact ⟨u, hps.mono (Nat.le_add_right _ _) (Nat.le_add_right _ _),
        by simp [Expr.mergeFactors]⟩
  | @cons f es x y i' j' k' l' j l hf _ _ hj hl ih =>
      cases hc : f.isConst with
      | true =>
          obtain ⟨x', rfl⟩ := exists_const_of_isConst hc
          obtain ⟨w, hw, hvalue⟩ := ih (c := c * x') hps (hb.mono (by omega) (by omega))
          refine ⟨w, hw.mono (by omega) (by omega), ?_⟩
          rw [mergeFactors_const, hvalue, valueIn_mul, hasValue_const_iff.1 hf.hasValue]
          ring
      | false =>
          have hpower := hf.baseAndExponent (hf.one_le hc)
          have hpowers := hps.mergePower hagain hpower (hb.mono (by omega) (by omega))
          obtain ⟨w, hw, hvalue⟩ := ih (c := c) hpowers (hb.mono (by omega) (by omega))
          rw [mergeFactors_cons hc]
          refine ⟨w, hw.mono (by omega) (by omega), ?_⟩
          rw [hvalue]
          ring

/-- A power with exponent zero is one. -/
theorem Graded.eq_one_of_isZeroConst {p : Expr κ × Expr κ}
    (h : Graded 1 I σ g (.pow p.1 p.2) v d q) (hz : p.2.isZeroConst = true) : v = 1 := by
  cases h with
  | pow _ hn _ _ _ _ _ _ =>
      have hn := hn.hasValue.eq_zero hz
      rw [Int.cast_eq_zero.1 hn, zpow_zero]

/-- A power with exponent one is its base. -/
theorem Graded.base_of_isOneConst {p : Expr κ × Expr κ}
    (h : Graded 1 I σ g (.pow p.1 p.2) v d q) (ho : p.2.isOneConst = true) :
    Graded 1 I σ g p.1 v d q := by
  have hb := h.admits
  cases h with
  | pow hx hn _ hi _ hk _ _ =>
      rw [Int.cast_eq_one.1 (hn.hasValue.eq_one ho)] at hi hk ⊢
      rw [zpow_one]
      exact hx.mono (by simpa using hi) (by simpa using hk) hb

/-- The powers that are kept as factors multiply to the value of all of them. -/
theorem PowersGraded.factors (h : PowersGraded I σ g ps v d q) (hb : g.Admits d q) :
    ProductGraded 1 I σ g (ps.filterMap factor?) v d q := by
  induction ps generalizing v d q with
  | nil =>
      cases h with
      | nil => exact .nil
  | cons p ps ih =>
      cases h with
      | cons hp hone hrest hi hk =>
          have hps := ih hrest (hb.mono (by omega) (by omega))
          rw [List.filterMap_cons]
          unfold factor?
          cases hz : p.2.isZeroConst with
          | true =>
              rw [hp.eq_one_of_isZeroConst hz, one_mul]
              exact hps.mono (by omega) (by omega)
          | false =>
              cases ho : p.2.isOneConst with
              | true =>
                  exact .cons (hp.base_of_isOneConst ho) hone hps hi hk
              | false => exact .cons hp hone hps hi hk

/-- **A product with its numbers multiplied and its equal bases merged.** -/
theorem Graded.simplifyProduct (hagain : KeepsGrades I σ again) (h : Graded 1 I σ g e v d q) :
    Graded 1 I σ g (simplifyProduct again e) v d q := by
  have hb := h.admits
  have none : PowersGraded I σ g ([] : List (Expr κ × Expr κ)) 1 0 0 := .nil
  obtain ⟨w, hw, hvalue⟩ := none.mergeFactors (c := Arithmetic.one) hagain h.factors
    (hb.mono (by omega) (by omega))
  rw [valueIn_one, one_mul, one_mul] at hvalue
  rw [Nat.zero_add, Nat.zero_add] at hw
  have hfactors := hw.factors hb
  unfold Expr.simplifyProduct
  dsimp only
  split
  · rename_i hz
    rw [(isZero_iff (K := K)).1 hz, zero_mul] at hvalue
    rw [← hvalue]
    exact .ofInt_zero hb
  · rw [← hvalue]
    split
    · rename_i hone
      rw [Bool.and_eq_true] at hone
      rw [(isOne_iff (K := K)).1 hone.1, one_mul]
      exact hfactors.product hb
    · exact (hfactors.product_cons (.const _ g.admits_zero) (hb.mono (by omega) (by omega))).mono
        (by omega) (by omega) hb

end Products

end Reckoner.Expr
