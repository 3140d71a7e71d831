/-
**Values of factors and terms.**

A product is taken apart into its factors and a sum into its terms, and both are put together
again.  This module follows values and degrees through these lists: the factors of an expression
multiply to its value, and its terms add up to it.

Main definitions:

* `Reckoner.Expr.SumGraded` — the value and the degrees of a sum of terms;
* `Reckoner.Expr.ProductGraded` — the value and the degrees of a product of factors.

Main results:

* `Reckoner.Expr.Graded.factors` — **the factors of an expression multiply to its value**;
* `Reckoner.Expr.Graded.terms` — **the terms of a multiple of an expression add up to it**;
* `Reckoner.Expr.Graded.atomPower` — no exponent of an atom is cut down;
* `Reckoner.Expr.ProductGraded.product` — the product of a list of factors.
-/

import Reckoner.Expr.Simplify
import Reckoner.Proofs.Degree

set_option autoImplicit false

namespace Reckoner.Expr

open Arithmetic (isZero isOne integer?)

variable {κ : Type} [Number κ] {K : Type} [Field K]

/-! ### Sums of terms -/

/-- The value and the degrees of a sum of terms. -/
inductive SumGraded (least : ℕ) (I : Functions K) (σ : Scope K) (g : Grading) :
    List (Expr κ) → K → ℕ → ℕ → Prop
  | nil {d q : ℕ} : SumGraded least I σ g [] 0 d q
  | cons {e : Expr κ} {es : List (Expr κ)} {u v : K} {i j k l d q : ℕ} :
      Graded least I σ g e u i k → SumGraded least I σ g es v j l → max i j ≤ d → k + l ≤ q →
      SumGraded least I σ g (e :: es) (u + v) d q

variable {least : ℕ} {I : Functions K} {σ : Scope K} {g : Grading}
variable {e : Expr κ} {es fs : List (Expr κ)} {u v : K} {d d' q q' i j k l : ℕ}

namespace SumGraded

theorem mono (h : SumGraded least I σ g es v d q) (hd : d ≤ d') (hq : q ≤ q') :
    SumGraded least I σ g es v d' q' := by
  cases h with
  | nil => exact .nil
  | cons he hes hj hl => exact .cons he hes (hj.trans hd) (hl.trans hq)

/-- Every term is graded. -/
theorem exists_of_mem (h : SumGraded least I σ g es v d q) (he : e ∈ es) :
    ∃ u i k, Graded least I σ g e u i k := by
  induction h with
  | nil => simp at he
  | cons hf _ _ _ ih => exact (List.mem_cons.1 he).elim (fun h => h ▸ ⟨_, _, _, hf⟩) ih

theorem single (h : Graded least I σ g e v d q) : SumGraded least I σ g [e] v d q := by
  have := cons h (nil (d := 0) (q := 0)) (max_le le_rfl (Nat.zero_le d)) le_rfl
  rwa [add_zero] at this

theorem append (h : SumGraded least I σ g es u i k) (h' : SumGraded least I σ g fs v j l) :
    SumGraded least I σ g (es ++ fs) (u + v) (max i j) (k + l) := by
  induction h with
  | nil =>
      rw [zero_add]
      exact h'.mono (le_max_right _ _) (Nat.le_add_left _ _)
  | cons he _ hd hq ih =>
      rw [List.cons_append, add_assoc]
      exact cons he ih (by omega) (by omega)

end SumGraded

/-! ### Products of factors -/

/-- The value and the degrees of a product of factors, each of degree `m` at least. -/
inductive ProductGraded (m : ℕ) (I : Functions K) (σ : Scope K) (g : Grading) :
    List (Expr κ) → K → ℕ → ℕ → Prop
  | nil {d q : ℕ} : ProductGraded m I σ g [] 1 d q
  | cons {e : Expr κ} {es : List (Expr κ)} {u v : K} {i j k l d q : ℕ} :
      Graded 1 I σ g e u i k → m ≤ i → ProductGraded m I σ g es v j l → i + j ≤ d → k + l ≤ q →
      ProductGraded m I σ g (e :: es) (u * v) d q

namespace ProductGraded

variable {m : ℕ}

theorem mono (h : ProductGraded m I σ g es v d q) (hd : d ≤ d') (hq : q ≤ q') :
    ProductGraded m I σ g es v d' q' := by
  cases h with
  | nil => exact .nil
  | cons he hi hes hj hl => exact .cons he hi hes (hj.trans hd) (hl.trans hq)

/-- Every factor is graded. -/
theorem exists_of_mem (h : ProductGraded m I σ g es v d q) (he : e ∈ es) :
    ∃ u i k, Graded 1 I σ g e u i k := by
  induction h with
  | nil => simp at he
  | cons hf _ _ _ _ ih => exact (List.mem_cons.1 he).elim (fun h => h ▸ ⟨_, _, _, hf⟩) ih

theorem single (h : Graded 1 I σ g e v d q) (hd : m ≤ d) : ProductGraded m I σ g [e] v d q := by
  have := cons h hd (nil (d := 0) (q := 0)) le_rfl le_rfl
  rwa [mul_one] at this

theorem append (h : ProductGraded m I σ g es u i k) (h' : ProductGraded m I σ g fs v j l) :
    ProductGraded m I σ g (es ++ fs) (u * v) (i + j) (k + l) := by
  induction h with
  | nil =>
      rw [one_mul]
      exact h'.mono (Nat.le_add_left _ _) (Nat.le_add_left _ _)
  | cons he hi _ hd hq ih =>
      rw [List.cons_append, mul_assoc]
      exact cons he hi ih (by omega) (by omega)

/-- Factors of positive degree are multiplied from left to right. -/
theorem foldl_mul (h : ProductGraded 1 I σ g es v j l) (he : Graded 1 I σ g e u i k)
    (hb : g.Admits (i + j) (k + l)) :
    Graded 1 I σ g (es.foldl .mul e) (u * v) (i + j) (k + l) := by
  induction h generalizing e u i k with
  | nil =>
      rw [mul_one]
      exact he.mono (Nat.le_add_right _ _) (Nat.le_add_right _ _) hb
  | cons hf hi _ hj hl ih =>
      rw [← mul_assoc]
      have hef := he.mul hf le_rfl le_rfl (by omega) (hb.mono (by omega) (by omega))
      exact (ih hef (hb.mono (by omega) (by omega))).mono (by omega) (by omega) hb

/-- The product of a list of factors, all but the first of positive degree. -/
theorem product_cons (he : Graded 1 I σ g e u i k) (h : ProductGraded 1 I σ g es v j l)
    (hb : g.Admits (i + j) (k + l)) :
    Graded 1 I σ g (Collection.product (e :: es)) (u * v) (i + j) (k + l) :=
  h.foldl_mul he hb

/-- The product of a list of factors of positive degree. -/
theorem product [ExactNumber κ] (h : ProductGraded 1 I σ g es v d q) (hb : g.Admits d q) :
    Graded 1 I σ g (Collection.product es) v d q := by
  cases h with
  | nil => exact .ofInt_one hb
  | cons he _ hes hj hl => exact (product_cons he hes (hb.mono hj hl)).mono hj hl hb

end ProductGraded

/-! ### Taking apart -/

namespace Graded

/-- **The factors of an expression multiply to its value.** -/
theorem factors (h : Graded 1 I σ g e v d q) : ProductGraded 0 I σ g e.factors v d q := by
  induction e generalizing v d q with
  | mul a b iha ihb =>
      cases h with
      | mul ha hb hd hq _ _ => exact ((iha ha).append (ihb hb)).mono hd hq
  | _ => exact .single h (Nat.zero_le _)

variable [CharZero K] [ExactNumber κ]

theorem scaled (c : κ) (h : Graded 1 I σ g e v d q) (he : e.isConst = false) :
    Graded 1 I σ g (scaled c e) (valueIn K c * v) d q := by
  unfold Expr.scaled
  split
  · rename_i hc
    rw [(isOne_iff (K := K)).1 hc, one_mul]
    exact h
  · exact .mul (.const c g.admits_zero) h (Nat.zero_add d).le (Nat.zero_add q).le (h.one_le he)
      h.admits

/-- **The terms of a multiple of an expression add up to it.** -/
theorem terms (c : κ) (h : Graded 1 I σ g e v d q) :
    SumGraded 1 I σ g (terms c e) (valueIn K c * v) d q := by
  fun_induction Expr.terms c e generalizing v d q with
  | case1 c a b iha ihb =>
      cases h with
      | add ha hb hj hl _ _ =>
          rw [mul_add]
          exact ((iha ha).append (ihb hb)).mono hj hl
  | case2 c a b iha ihb =>
      cases h with
      | sub ha hb hj hl _ _ =>
          have := ((iha ha).append (ihb hb)).mono hj hl
          rwa [valueIn_neg, neg_mul, ← sub_eq_add_neg, ← mul_sub] at this
  | case3 c x =>
      have hb := h.admits
      cases h with
      | const _ _ =>
          have : SumGraded 1 I σ g [.const (x * c)] _ d q := .single (.const _ hb)
          rwa [valueIn_mul, mul_comm] at this
  | case4 c x b _ ih =>
      cases h with
      | mul ha hb hj hl _ _ =>
          rw [hasValue_const_iff.1 ha.hasValue, ← mul_assoc, ← valueIn_mul]
          exact (ih hb).mono (by omega) (by omega)
  | case5 c x b _ => exact .single (h.scaled c rfl)
  | case6 c a x _ _ ih =>
      cases h with
      | mul ha hb hj hl _ _ =>
          rw [hasValue_const_iff.1 hb.hasValue, mul_comm _ (valueIn K x), ← mul_assoc,
            ← valueIn_mul]
          exact (ih ha).mono (by omega) (by omega)
  | case7 c a x _ _ => exact .single (h.scaled c rfl)
  | case8 c a b _ _ => exact .single (h.scaled c rfl)
  | case9 c e _ _ hconst _ => exact .single (h.scaled c (isConst_eq_false hconst))

/-- **No exponent of an atom is cut down.**  A factor that is no number is the power of its
atom, which is no number either. -/
theorem atomPower (h : Graded 1 I σ g e v d q) (he : e.isConst = false) :
    e.atomPower.1.isConst = false ∧ ∃ u i k, Graded 1 I σ g e.atomPower.1 u i k ∧
      v = u ^ e.atomPower.2.toNat ∧ e.atomPower.2.toNat * i ≤ d ∧
      e.atomPower.2.toNat * k ≤ q := by
  have itself : (e, (1 : ℤ)).1.isConst = false ∧ ∃ u i k, Graded 1 I σ g (e, (1 : ℤ)).1 u i k ∧
      v = u ^ (e, (1 : ℤ)).2.toNat ∧ (e, (1 : ℤ)).2.toNat * i ≤ d ∧
      (e, (1 : ℤ)).2.toNat * k ≤ q :=
    ⟨he, v, d, q, h, by simp, by simp, by simp⟩
  unfold Expr.atomPower
  split
  · rename_i base c
    split
    · rename_i n hn
      split
      · rename_i hpos
        simp only [Bool.and_eq_true, decide_eq_true_eq, Bool.not_eq_true'] at hpos
        have hd := h.admits.lt
        cases h with
        | @pow _ _ _ w m i _ k _ _ _ ha hb _ hi _ hk _ _ =>
            -- the exponent is the number that is written
            have hm : m = n := by
              have := hasValue_const_iff.1 hb.hasValue
              rw [integer?_eq_some_iff, ← valueIn_eq_intCast_iff (K := K)] at hn
              exact Int.cast_injective (this.trans hn)
            subst hm
            have hbase := ha.one_le hpos.2
            have hle : m.natAbs ≤ d := le_trans (Nat.le_mul_of_pos_right _ hbase) hi
            have hmin : min m maxExponent = m := by
              refine min_eq_left ?_
              unfold maxExponent
              unfold degreeBound at hd
              omega
            rw [hmin]
            have habs : m.natAbs = m.toNat := by omega
            rw [habs] at hi hk
            refine ⟨hpos.2, w, i, k, ha, ?_, hi, (Nat.le_add_right _ _).trans hk⟩
            rw [← zpow_natCast, Int.toNat_of_nonneg hpos.1.le]
      · exact itself
    · exact itself
  · exact itself

end Graded

end Reckoner.Expr
