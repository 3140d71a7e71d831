/-
**Expansion and single fractions keep the value.**

Expansion works on lists of terms.  The terms of an expression add up to its value, products of
terms are the terms of a product, and collecting a sum after every factor of a power changes
neither its value nor its degree.

An expression that has a value is brought over a denominator whose value is not zero.  A sum over
different denominators is written over their product, so that for a single fraction all degrees
over a common denominator have to be below the bound.

Main definitions:

* `Reckoner.Expr.HasDegree`, `Reckoner.Expr.SumHasDegree` — value and degree, of an expression and
  of a sum of terms, whatever the denominators;
* `Reckoner.Expr.Fraction.Represents` — the value and the degrees of a fraction.

Main results:

* `Reckoner.Expr.HasDegree.expandedTermsWith` — the terms of an expression add up to its value;
* `Reckoner.Expr.HasDegree.expand` — **expansion keeps the value**;
* `Reckoner.Expr.Graded.toFraction` — **an expression is the quotient of its fraction**, whose
  denominator is not zero;
* `Reckoner.Expr.expand_rationalize_hasValue` — **expansion and single fractions keep the value of
  every expression**.
-/

import Reckoner.Expr.Fraction
import Reckoner.Proofs.SimplifyValue

set_option autoImplicit false

namespace Reckoner.Expr

open Arithmetic (isZero isOne integer?)

variable {κ : Type} [Number κ] {K : Type} [Field K]
variable {I : Functions K} {σ : Scope K} {g : Grading}
variable {a b e : Expr κ} {es fs : List (Expr κ)} {u v w : K} {d d' q q' i j k l : ℕ}

/-! ### Value and degree -/

/-- Value and degree, whatever the denominators. -/
def HasDegree (I : Functions K) (σ : Scope K) (e : Expr κ) (v : K) (d : ℕ) : Prop :=
  ∃ q, Graded 0 I σ .polynomial e v d q

/-- The value and the degree of a sum of terms. -/
def SumHasDegree (I : Functions K) (σ : Scope K) (es : List (Expr κ)) (v : K) (d : ℕ) : Prop :=
  ∃ q, SumGraded 0 I σ .polynomial es v d q

theorem HasDegree.lt (h : HasDegree I σ e v d) : d < degreeBound := by
  obtain ⟨q, h⟩ := h
  exact h.admits.lt

theorem HasDegree.hasValue (h : HasDegree I σ e v d) : HasValue I σ e v := by
  obtain ⟨q, h⟩ := h
  exact h.hasValue

theorem HasDegree.mono (h : HasDegree I σ e v d) (hd : d ≤ d') (hb : d' < degreeBound) :
    HasDegree I σ e v d' := by
  obtain ⟨q, h⟩ := h
  exact ⟨q, h.mono hd le_rfl hb⟩

theorem HasDegree.mul (ha : HasDegree I σ a u i) (hb : HasDegree I σ b v j)
    (hd : i + j < degreeBound) : HasDegree I σ (.mul a b) (u * v) (i + j) := by
  obtain ⟨⟨k, ha⟩, ⟨l, hb⟩⟩ := ha, hb
  exact ⟨k + l, ha.mul hb le_rfl le_rfl (Nat.zero_le _) hd⟩

theorem HasDegree.div (ha : HasDegree I σ a u i) (hb : HasDegree I σ b v j) (hv : v ≠ 0)
    (hd : i + j < degreeBound) : HasDegree I σ (.div a b) (u / v) (i + j) := by
  obtain ⟨⟨k, ha⟩, ⟨l, hb⟩⟩ := ha, hb
  exact ⟨k + l + j, ha.div hb hv le_rfl le_rfl (Nat.zero_le _) hd⟩

theorem HasDegree.negated [ExactNumber κ] (h : HasDegree I σ e v d) :
    HasDegree I σ e.negated (-1 * v) d := by
  obtain ⟨q, h⟩ := h
  have := (Graded.ofInt (κ := κ) (-1) Grading.polynomial.admits_zero).mul h (Nat.zero_add d).le
    (Nat.zero_add q).le (Nat.zero_le _) h.admits
  rw [Int.cast_neg, Int.cast_one] at this
  exact ⟨q, this⟩

namespace SumHasDegree

theorem mono (h : SumHasDegree I σ es v d) (hd : d ≤ d') : SumHasDegree I σ es v d' := by
  obtain ⟨q, h⟩ := h
  exact ⟨q, h.mono hd le_rfl⟩

theorem single (h : HasDegree I σ e v d) : SumHasDegree I σ [e] v d := by
  obtain ⟨q, h⟩ := h
  exact ⟨q, .single h⟩

theorem append (h : SumHasDegree I σ es u i) (h' : SumHasDegree I σ fs v j) :
    SumHasDegree I σ (es ++ fs) (u + v) (max i j) := by
  obtain ⟨⟨k, h⟩, ⟨l, h'⟩⟩ := h, h'
  exact ⟨k + l, h.append h'⟩

/-- Where every term is multiplied, so is the sum. -/
theorem map {F : Expr κ → Expr κ} (h : SumHasDegree I σ es v i) (hi : i < degreeBound)
    (hF : ∀ f w, HasDegree I σ f w i → HasDegree I σ (F f) (u * w) d) :
    SumHasDegree I σ (es.map F) (u * v) d := by
  obtain ⟨q, h⟩ := h
  induction h with
  | nil =>
      rw [mul_zero]
      exact ⟨0, .nil⟩
  | @cons e es x y i' j k l i q he _ hj _ ih =>
      rw [mul_add]
      have hfirst := single (hF e x (HasDegree.mono ⟨k, he⟩ (by omega) hi))
      obtain ⟨q', hrest⟩ := ih (by omega) fun f w hf => hF f w (hf.mono (by omega) hi)
      exact (hfirst.append ⟨q', hrest⟩).mono (by omega)

/-- The sum of a list of terms has the value of the terms. -/
theorem foldl_add (h : SumHasDegree I σ es v j) (he : HasDegree I σ e u i)
    (hd : max i j < degreeBound) : HasDegree I σ (es.foldl .add e) (u + v) (max i j) := by
  obtain ⟨q, h⟩ := h
  induction h generalizing e u i with
  | nil =>
      rw [add_zero]
      exact he.mono (le_max_left _ _) hd
  | cons hf _ hj _ ih =>
      obtain ⟨k, he⟩ := he
      rw [← add_assoc]
      have hef := he.add hf le_rfl le_rfl (Nat.zero_le _) (show max i _ < degreeBound by omega)
      exact (ih ⟨_, hef⟩ (by omega)).mono (by omega) hd

variable [ExactNumber κ]

theorem sumOf (h : SumHasDegree I σ es v d) (hd : d < degreeBound) :
    HasDegree I σ (sumOf es) v d := by
  obtain ⟨q, h⟩ := h
  cases h with
  | nil => exact ⟨0, .ofInt_zero hd⟩
  | @cons e es x y i j k l _ _ he hes hj _ =>
      have hes : SumHasDegree I σ es y j := ⟨l, hes⟩
      exact (hes.foldl_add ⟨k, he⟩ (by omega)).mono hj hd

variable [CharZero K]

/-- **A collected sum has the value of its terms.** -/
theorem collect (folds : FoldsExactly κ I) (h : SumHasDegree I σ es v d) (hd : d < degreeBound) :
    HasDegree I σ (collect es) v d := by
  obtain ⟨q, h⟩ := h.sumOf hd
  exact ⟨q, (h.simplify folds).relax⟩

omit [CharZero K] [ExactNumber κ] in
/-- The products of terms are the terms of the product. -/
theorem crossProduct (h : SumHasDegree I σ es u i) (h' : SumHasDegree I σ fs v j)
    (hd : i + j < degreeBound) : SumHasDegree I σ (crossProduct es fs) (u * v) (i + j) := by
  obtain ⟨q, h⟩ := h
  induction h with
  | nil =>
      rw [zero_mul]
      exact ⟨0, .nil⟩
  | @cons e es x y i' j' k l i q he _ hj _ ih =>
      rw [add_mul]
      have hmap := h'.map (F := .mul e) (by omega) fun f w hf =>
        HasDegree.mul ⟨k, he⟩ hf (by omega)
      obtain ⟨q', hrest⟩ := ih (by omega)
      exact (hmap.append ⟨q', hrest⟩).mono (by omega)

/-- **The terms of a power**, collected after every factor. -/
theorem powerTerms (folds : FoldsExactly κ I) {again : Expr κ → List (Expr κ)}
    (hagain : ∀ e v d, HasDegree I σ e v d → SumHasDegree I σ (again e) v d)
    (h : SumHasDegree I σ es v d) (n : ℕ) (hd : n * d < degreeBound) :
    SumHasDegree I σ (powerTerms again es n) (v ^ n) (n * d) := by
  induction n with
  | zero =>
      rw [pow_zero, Nat.zero_mul]
      exact single ⟨0, .ofInt_one Grading.polynomial.admits_zero⟩
  | succ n ih =>
      rw [Nat.succ_mul] at hd ⊢
      rw [pow_succ]
      exact hagain _ _ _ (((ih (by omega)).crossProduct h hd).collect folds hd)

end SumHasDegree

/-! ### Expansion -/

section Expansion

variable [CharZero K] [ExactNumber κ]

omit [CharZero K] in
/-- An exponent that is multiplied out is a number. -/
theorem expandedExponent?_eq_some {n : ℕ} (h : b.expandedExponent? = some n) :
    ∃ c, b = .const c ∧ Number.value c = n := by
  unfold expandedExponent? at h
  split at h
  · rename_i c
    split at h
    · rename_i m hm
      split at h
      · rename_i hrange
        rw [Bool.and_eq_true, decide_eq_true_eq] at hrange
        refine ⟨c, rfl, ?_⟩
        rw [integer?_eq_some_iff.1 hm, ← Option.some.inj h]
        exact_mod_cast (Int.toNat_of_nonneg hrange.1).symm
      · simp at h
    · simp at h
  · simp at h

/-- **The terms of an expression add up to its value.** -/
theorem HasDegree.expandedTermsWith (folds : FoldsExactly κ I) {again : Expr κ → List (Expr κ)}
    (hagain : ∀ e v d, HasDegree I σ e v d → SumHasDegree I σ (again e) v d)
    (h : HasDegree I σ e v d) : SumHasDegree I σ (expandedTermsWith again e) v d := by
  induction e generalizing v d with
  | var x => exact .single h
  | const c => exact .single h
  | add a b iha ihb =>
      obtain ⟨q, h⟩ := h
      cases h with
      | add ha hb hj _ _ _ => exact ((iha ⟨_, ha⟩).append (ihb ⟨_, hb⟩)).mono hj
  | sub a b iha ihb =>
      obtain ⟨q, h⟩ := h
      cases h with
      | @sub _ _ _ u v i j k l _ _ ha hb hj _ _ _ =>
          rw [sub_eq_add_neg, ← neg_one_mul v]
          exact ((iha ⟨_, ha⟩).append
            ((ihb ⟨_, hb⟩).map (d := j) hb.admits fun f w hf => hf.negated)).mono hj
  | mul a b iha ihb =>
      obtain ⟨q, h⟩ := h
      cases h with
      | mul ha hb hj _ _ hd =>
          exact ((iha ⟨_, ha⟩).crossProduct (ihb ⟨_, hb⟩) (hj.trans_lt hd)).mono hj
  | div a b iha ihb =>
      obtain ⟨q, h⟩ := h
      cases h with
      | @div _ _ _ u v i j k l _ _ ha hb hv hj _ _ hd =>
          have hden := (ihb ⟨_, hb⟩).collect folds hb.admits
          -- every term of the numerator is divided by the collected denominator
          rw [div_eq_mul_inv, mul_comm]
          refine ((iha ⟨_, ha⟩).map (d := i + j) ha.admits fun f w hf => ?_).mono hj
          rw [mul_comm, ← div_eq_mul_inv]
          exact hf.div hden hv (hj.trans_lt hd)
  | pow a b iha ihb =>
      obtain ⟨q, h⟩ := h
      cases h with
      | @pow _ _ _ u n i j k l _ _ ha hb hn hi hj _ _ hd =>
          have hbase := iha ⟨_, ha⟩
          obtain ⟨k', hcollected⟩ := hbase.collect folds ha.admits
          unfold Expr.expandedTermsWith
          dsimp only
          split
          · rename_i m hm
            split
            · exact .single ⟨_, hcollected.pow hb hn hi hj le_rfl (Nat.zero_le _) hd⟩
            · -- the exponent is the number that is written
              obtain ⟨c, rfl, hc⟩ := expandedExponent?_eq_some hm
              have hnm : n = m := by
                have hvalue := hasValue_const_iff.1 hb.hasValue
                rw [valueIn, hc] at hvalue
                exact_mod_cast hvalue
              rw [hnm, Int.natAbs_natCast] at hi
              rw [hnm, zpow_natCast]
              exact (hbase.powerTerms folds hagain m (hi.trans_lt hd)).mono hi
          · obtain ⟨l', hexponent⟩ := (ihb ⟨_, hb⟩).collect folds hb.admits
            exact .single ⟨_, hcollected.pow hexponent hn hi hj le_rfl (Nat.zero_le _) hd⟩
  | apply f a ih =>
      obtain ⟨q, h⟩ := h
      cases h with
      | apply ha hf h1 hd =>
          obtain ⟨k', hcollected⟩ := (ih ⟨_, ha⟩).collect folds ha.admits
          exact .single ⟨q, hcollected.apply hf h1 hd⟩

theorem HasDegree.expandedTermsWithin (folds : FoldsExactly κ I) (n : ℕ)
    (h : HasDegree I σ e v d) : SumHasDegree I σ (expandedTermsWithin n e) v d := by
  induction n generalizing e v d with
  | zero => exact h.expandedTermsWith folds fun _ _ _ h => .single h
  | succ n ih => exact h.expandedTermsWith folds fun _ _ _ h => ih h

/-- **Expansion keeps the value.** -/
theorem HasDegree.expand (folds : FoldsExactly κ I) (h : HasDegree I σ e v d) :
    HasDegree I σ e.expand v d :=
  (h.expandedTermsWithin folds (e.reach + 1)).collect folds h.lt

end Expansion

/-! ### Fractions -/

namespace Fraction

/-- The value and the degrees of a fraction whose denominator is not zero. -/
def Represents (I : Functions K) (σ : Scope K) (p : Fraction κ) (v : K) (d q : ℕ) : Prop :=
  ∃ x y, HasDegree I σ p.num x (d + q) ∧ HasDegree I σ p.den y q ∧ y ≠ 0 ∧ v = x / y

end Fraction

section Fractions

variable [CharZero K] [ExactNumber κ]

theorem HasDegree.times (ha : HasDegree I σ a u i) (hb : HasDegree I σ b v j)
    (hd : i + j < degreeBound) : HasDegree I σ (a.times b) (u * v) (i + j) := by
  unfold Expr.times
  split
  · rename_i ho
    obtain ⟨k, ha⟩ := ha
    rw [ha.hasValue.eq_one ho, one_mul]
    exact hb.mono (by omega) hd
  · split
    · rename_i ho
      obtain ⟨l, hb⟩ := hb
      rw [hb.hasValue.eq_one ho, mul_one]
      exact ha.mono (by omega) hd
    · exact ha.mul hb hd

/-- A power of a numerator or a denominator. -/
theorem HasDegree.toPower {c : κ} {n : ℕ} (h : HasDegree I σ e v d) (hc : Number.value c = n)
    (hd : n * d < degreeBound) : HasDegree I σ (e.toPower c) (v ^ n) (n * d) := by
  have hvalue : valueIn K c = ((n : ℤ) : K) := valueIn_eq_intCast_iff.2 (by exact_mod_cast hc)
  obtain ⟨q, h⟩ := h
  unfold Expr.toPower
  split
  · rename_i ho
    rcases Bool.or_eq_true_iff.1 ho with ho | ho
    · have hn : n = 1 := by
        have := (isOne_iff (K := K)).1 ho
        rw [hvalue] at this
        exact_mod_cast this
      rw [hn, pow_one, Nat.one_mul]
      exact ⟨q, h⟩
    · -- one is a number, of any degree
      rw [h.hasValue.eq_one ho, one_pow]
      cases e with
      | const c' =>
          rw [← h.hasValue.eq_one ho, hasValue_const_iff.1 h.hasValue]
          exact ⟨0, .const c' hd⟩
      | _ => simp [isOneConst] at ho
  · have hexponent : Graded 0 I σ .polynomial (.const c) ((n : ℤ) : K) 0 0 := by
      rw [← hvalue]
      exact .const c Grading.polynomial.admits_zero
    rw [← zpow_natCast]
    exact ⟨_, h.pow hexponent (.inr (Int.natCast_nonneg n)) (by rw [Int.natAbs_natCast])
      (Nat.zero_le _) le_rfl (Nat.zero_le _) hd⟩

namespace Fraction

variable {p p' : Fraction κ}

omit [CharZero K] [ExactNumber κ] in
theorem Represents.mono (h : Represents I σ p v d q) (hd : d ≤ d') (hq : q ≤ q')
    (hb : d' + q' < degreeBound) : Represents I σ p v d' q' := by
  obtain ⟨x, y, hx, hy, hy0, rfl⟩ := h
  exact ⟨x, y, hx.mono (by omega) hb, hy.mono hq (by omega), hy0, rfl⟩

omit [CharZero K] in
theorem Represents.whole (h : Graded 0 I σ .fraction e v d q) :
    Represents I σ (Fraction.whole e) v d q := by
  have hb : d + q < degreeBound := h.admits
  refine ⟨v, 1, HasDegree.mono ⟨q, h.polynomial⟩ (Nat.le_add_right _ _) hb,
    ⟨0, .ofInt_one ?_⟩, one_ne_zero, (div_one v).symm⟩
  exact (Nat.le_add_left q d).trans_lt hb

/-- Numerators over one denominator are joined as they are, and over different ones across. -/
theorem Represents.join {op : Expr κ → Expr κ → Expr κ} {f : K → K → K}
    (hop : ∀ a b u v d, HasDegree I σ a u d → HasDegree I σ b v d → HasDegree I σ (op a b) (f u v) d)
    (hf : ∀ x y z : K, z ≠ 0 → f (x / z) (y / z) = f x y / z)
    (h : Represents I σ p u i k) (h' : Represents I σ p' v j l)
    (hd : max i j + (k + l) < degreeBound) :
    Represents I σ (join op p p') (f u v) (max i j) (k + l) := by
  obtain ⟨x, y, hx, hy, hy0, rfl⟩ := h
  obtain ⟨x', y', hx', hy', hy0', rfl⟩ := h'
  unfold Fraction.join
  split
  · rename_i hs
    have hs := same_iff_eq.1 hs
    -- equal denominators have one value
    have heq : y = y' := by
      obtain ⟨⟨_, hy⟩, ⟨_, hy'⟩⟩ := hy, hy'
      rw [hs] at hy
      exact hy.unique hy'
    subst heq
    refine ⟨f x x', y, hop _ _ _ _ _ (hx.mono (by omega) hd) (hx'.mono (by omega) hd),
      hy.mono (by omega) (by omega), hy0, hf x x' y hy0⟩
  · refine ⟨f (x * y') (x' * y), y * y', hop _ _ _ _ _ ?_ ?_, hy.times hy' (by omega),
      mul_ne_zero hy0 hy0', ?_⟩
    · exact (hx.times hy' (by omega)).mono (by omega) hd
    · exact (hx'.times hy (by omega)).mono (by omega) hd
    · rw [← hf _ _ _ (mul_ne_zero hy0 hy0'), mul_div_mul_right _ _ hy0', mul_comm x' y,
        mul_div_mul_left _ _ hy0]

theorem Represents.mul (h : Represents I σ p u i k) (h' : Represents I σ p' v j l)
    (hd : i + j + (k + l) < degreeBound) :
    Represents I σ (p.mul p') (u * v) (i + j) (k + l) := by
  obtain ⟨x, y, hx, hy, hy0, rfl⟩ := h
  obtain ⟨x', y', hx', hy', hy0', rfl⟩ := h'
  refine ⟨x * x', y * y', (hx.times hx' (by omega)).mono (by omega) hd,
    hy.times hy' (by omega), mul_ne_zero hy0 hy0', ?_⟩
  rw [div_mul_div_comm]

theorem Represents.div (h : Represents I σ p u i k) (h' : Represents I σ p' v j l) (hv : v ≠ 0)
    (hd : i + j + (k + l + j) < degreeBound) :
    Represents I σ (p.div p') (u / v) (i + j) (k + l + j) := by
  obtain ⟨x, y, hx, hy, hy0, rfl⟩ := h
  obtain ⟨x', y', hx', hy', hy0', rfl⟩ := h'
  have hx0 : x' ≠ 0 := (div_ne_zero_iff.1 hv).1
  refine ⟨x * y', y * x', (hx.times hy' (by omega)).mono (by omega) hd,
    (hy.times hx' (by omega)).mono (by omega) (by omega), mul_ne_zero hy0 hx0, ?_⟩
  rw [div_div_div_eq]

theorem Represents.pow {c : κ} {n : ℤ} (h : Represents I σ p u i k) (hc : Number.value c = n)
    (hu : u ≠ 0 ∨ 0 ≤ n)
    (hd : n.natAbs * i + (n.natAbs * k + (-n).toNat * i) < degreeBound) :
    Represents I σ (p.pow c) (u ^ n) (n.natAbs * i) (n.natAbs * k + (-n).toNat * i) := by
  obtain ⟨x, y, hx, hy, hy0, rfl⟩ := h
  have hsplit := Nat.mul_add n.natAbs i k
  unfold Fraction.pow
  split
  · rename_i hneg
    -- the fraction is turned around
    rw [isNegative_iff, hc, Int.cast_lt_zero] at hneg
    have hx0 : x ≠ 0 := (div_ne_zero_iff.1 (hu.resolve_right (not_le.2 hneg))).1
    have hn : (-n).toNat = n.natAbs := by omega
    have hval : Number.value (-c) = (n.natAbs : ℕ) := by
      rw [ExactNumber.value_neg, hc, ← Int.cast_natCast, Int.ofNat_natAbs_of_nonpos hneg.le,
        Int.cast_neg]
    rw [hn] at hd ⊢
    refine ⟨y ^ n.natAbs, x ^ n.natAbs, (hy.toPower hval (by omega)).mono (by omega) hd,
      (hx.toPower hval (by omega)).mono (by omega) (by omega), pow_ne_zero _ hx0, ?_⟩
    rw [← div_pow, ← inv_div x y, inv_pow, ← zpow_natCast, ← zpow_neg,
      Int.ofNat_natAbs_of_nonpos hneg.le, neg_neg]
  · rename_i hneg
    rw [isNegative_iff, hc, Int.cast_lt_zero, not_lt] at hneg
    have hval : Number.value c = (n.natAbs : ℕ) := by
      rw [hc, ← Int.cast_natCast n.natAbs, Int.natAbs_of_nonneg hneg]
    refine ⟨x ^ n.natAbs, y ^ n.natAbs, (hx.toPower hval (by omega)).mono (by omega) hd,
      (hy.toPower hval (by omega)).mono (by omega) (by omega), pow_ne_zero _ hy0, ?_⟩
    rw [← div_pow, ← zpow_natCast, Int.natAbs_of_nonneg hneg]

end Fraction

/-- **An expression is the quotient of its fraction**, whose denominator is not zero. -/
theorem Graded.toFraction (h : Graded 0 I σ .fraction e v d q) :
    e.toFraction.Represents I σ v d q := by
  fun_induction Expr.toFraction e generalizing v d q with
  | case1 a b iha ihb =>
      cases h with
      | add ha hb hj hl _ hd =>
          have hd' := Grading.Admits.mono hd hj hl
          refine ((iha ha).join ?_ ?_ (ihb hb) hd').mono hj hl hd
          · rintro a b u v d ⟨k, ha⟩ ⟨l, hb⟩
            exact ⟨k + l, ha.add hb (max_self d).le le_rfl (Nat.zero_le _) ha.admits⟩
          · exact fun x y z _ => (add_div x y z).symm
  | case2 a b iha ihb =>
      cases h with
      | sub ha hb hj hl _ hd =>
          have hd' := Grading.Admits.mono hd hj hl
          refine ((iha ha).join ?_ ?_ (ihb hb) hd').mono hj hl hd
          · rintro a b u v d ⟨k, ha⟩ ⟨l, hb⟩
            exact ⟨k + l, ha.sub hb (max_self d).le le_rfl (Nat.zero_le _) ha.admits⟩
          · exact fun x y z _ => (sub_div x y z).symm
  | case3 a b iha ihb =>
      cases h with
      | mul ha hb hj hl _ hd =>
          exact ((iha ha).mul (ihb hb) (Grading.Admits.mono hd hj hl)).mono hj hl hd
  | case4 a b iha ihb =>
      cases h with
      | div ha hb hv hj hl _ hd =>
          exact ((iha ha).div (ihb hb) hv (Grading.Admits.mono hd hj hl)).mono hj hl hd
  | case5 a c hc ih =>
      cases h with
      | @pow _ _ _ u n i j k l _ _ ha hb hn hi hj hk _ hd =>
          have hvalue : Number.value c = n :=
            (valueIn_eq_intCast_iff (K := K)).1 (hasValue_const_iff.1 hb.hasValue).symm
          exact ((ih ha).pow hvalue hn (Grading.Admits.mono hd hi hk)).mono hi hk hd
  -- what is no operation on fractions stays in the numerator
  | case6 a c hc => exact .whole h
  | case7 e _ _ _ _ _ => exact .whole h

/-- **A single fraction keeps the value.** -/
theorem Graded.rationalize (folds : FoldsExactly κ I) (h : Graded 0 I σ .fraction e v d q) :
    HasValue I σ e.rationalize v ∧
      ∃ y, y ≠ 0 ∧ HasValue I σ e.simplify.toFraction.den y ∧
        HasValue I σ e.simplify.toFraction.den.expand y := by
  obtain ⟨x, y, hx, hy, hy0, rfl⟩ := (h.simplify folds).relax.toFraction
  have hnum := hx.expand folds
  have hden := hy.expand folds
  refine ⟨?_, y, hy0, hy.hasValue, hden.hasValue⟩
  unfold Expr.rationalize
  dsimp only
  split
  · rename_i c hc
    -- the denominator is a number: one, zero, or one that is divided out
    rw [hc] at hden
    have hyc := hasValue_const_iff.1 hden.hasValue
    split
    · rename_i ho
      rw [hyc, (isOne_iff (K := K)).1 ho, div_one]
      exact hnum.hasValue
    · split
      · exact .div hnum.hasValue hden.hasValue hy0
      · have hconst : HasDegree I σ (.const c) y 0 :=
          ⟨0, hyc ▸ .const c Grading.polynomial.admits_zero⟩
        exact ((hnum.div hconst hy0 hnum.lt).expand folds).hasValue
  · exact .div hnum.hasValue hden.hasValue hy0

/-- **Expansion and single fractions keep the value of every expression.**  The names in it are
identifiers.  Its degrees under the scope are below the bound, and for a single fraction those
over a common denominator are; its denominator is not zero then. -/
theorem expand_rationalize_hasValue (folds : FoldsExactly κ I) (names : Named e)
    (h : HasValue I σ e v) :
    (e.DegreesBounded I σ .polynomial → HasValue I σ e.expand v) ∧
      (e.DegreesBounded I σ .fraction → HasValue I σ e.rationalize v ∧
        ∃ y, y ≠ 0 ∧ HasValue I σ e.simplify.toFraction.den y ∧
          HasValue I σ e.simplify.toFraction.den.expand y) := by
  constructor
  · intro degrees
    have hdegree : HasDegree I σ e v (e.degree I σ) := ⟨_, .of_hasValue h names degrees⟩
    exact (hdegree.expand folds).hasValue
  · intro degrees
    exact (Graded.of_hasValue h names degrees).rationalize folds

end Fractions

/-- The sum of the reciprocals of a variable and its successor. -/
def sumOfReciprocals : Expr Ratio :=
  .add (.div (ofInt 1) (.var "x")) (.div (ofInt 1) (.add (.var "x") (ofInt 1)))

theorem hasValue_sumOfReciprocals :
    HasValue Ratio.functions (.single "x" (2 : ℚ)) sumOfReciprocals (5 / 6) := by
  have hx : HasValue Ratio.functions (.single "x" (2 : ℚ)) (.var "x" : Expr Ratio) 2 := .var rfl
  have one : HasValue Ratio.functions (.single "x" (2 : ℚ)) (ofInt 1 : Expr Ratio) _ := .ofInt 1
  have := (one.div hx (by norm_num)).add (one.div (hx.add one) (by norm_num))
  norm_num at this
  exact this

/-- The value of `1 / x + 1 / (x + 1)` at two is kept. -/
theorem expand_rationalize_hasValue_sumOfReciprocals :
    FoldsExactly Ratio Ratio.functions ∧ Named sumOfReciprocals ∧
      sumOfReciprocals.DegreesBounded Ratio.functions (.single "x" (2 : ℚ)) .polynomial ∧
      sumOfReciprocals.DegreesBounded Ratio.functions (.single "x" (2 : ℚ)) .fraction ∧
      HasValue Ratio.functions (.single "x" (2 : ℚ)) sumOfReciprocals (5 / 6) ∧
      HasValue Ratio.functions (.single "x" (2 : ℚ)) sumOfReciprocals.expand (5 / 6) ∧
      HasValue Ratio.functions (.single "x" (2 : ℚ)) sumOfReciprocals.rationalize (5 / 6) := by
  have names : Named sumOfReciprocals := by
    have : IsName "x" := by decide
    simp [sumOfReciprocals, Named, this]
  have degrees (g : Grading) :
      sumOfReciprocals.DegreesBounded Ratio.functions (.single "x" (2 : ℚ)) g := by
    cases g <;> simp [sumOfReciprocals, DegreesBounded, degree, denominators, Grading.Admits,
      Grading.size, degreeBound]
  have value := expand_rationalize_hasValue Ratio.foldsExactly names hasValue_sumOfReciprocals
  exact ⟨Ratio.foldsExactly, names, degrees _, degrees _, hasValue_sumOfReciprocals,
    value.1 (degrees _), (value.2 (degrees _)).1⟩

end Reckoner.Expr
