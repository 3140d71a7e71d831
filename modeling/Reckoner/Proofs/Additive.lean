/-
**Measures that add up along products.**

The bounds on the recursions of simplification and of expansion are measures of expressions that add
up along products and count no numbers.  Collecting takes a term apart into factors, merges the
factors with equal atoms and writes a product again, so that such a measure of a term does not grow
as soon as it does not grow when two powers of one atom are merged.

Main definitions:

* `Reckoner.Expr.Additive` — a measure of this kind;
* `Reckoner.Expr.total`, `Reckoner.Monomial.total` — the measure of some factors together, and of
  the powers in a monomial.

Main results:

* `Reckoner.Expr.Additive.factors`, `Reckoner.Expr.Additive.product` — the measure of a product is
  that of its factors;
* `Reckoner.Expr.Additive.writtenTerm` — a written term measures as much as its monomial;
* `Reckoner.Expr.Additive.monomial_le` — **a monomial measures no more than its term**.
-/

import Reckoner.Proofs.Rebuilding

set_option autoImplicit false

namespace Reckoner

open Arithmetic (isZero isOne one)

variable {κ : Type} [Number κ]

/-! ### Products -/

namespace Expr

variable {μ : Expr κ → ℕ} {e : Expr κ} {es : List (Expr κ)} {c : κ}

/-- A measure that adds up along products and counts no numbers. -/
structure Additive (μ : Expr κ → ℕ) : Prop where
  /-- Numbers count nothing. -/
  const (c : κ) : μ (.const c) = 0
  /-- Factors add up. -/
  mul (a b : Expr κ) : μ (.mul a b) = μ a + μ b

/-- The measure of some factors together. -/
def total (μ : Expr κ → ℕ) (es : List (Expr κ)) : ℕ := (es.map μ).sum

omit [Number κ] in
@[simp] theorem total_nil : total μ [] = 0 := rfl

omit [Number κ] in
@[simp] theorem total_cons (e : Expr κ) (es : List (Expr κ)) :
    total μ (e :: es) = μ e + total μ es := by
  simp [total]

omit [Number κ] in
@[simp] theorem total_append (es fs : List (Expr κ)) :
    total μ (es ++ fs) = total μ es + total μ fs := by
  simp [total]

namespace Additive

variable (h : Additive μ)

include h

omit [Number κ] in
theorem factors (e : Expr κ) : total μ e.factors = μ e := by
  induction e with
  | mul a b iha ihb =>
      have hfactors : (Expr.mul a b).factors = a.factors ++ b.factors := rfl
      rw [hfactors, total_append, iha, ihb, h.mul]
  | _ => simp [Expr.factors]

theorem product (es : List (Expr κ)) : μ (Collection.product es) = total μ es := by
  have fold (es : List (Expr κ)) (e : Expr κ) : μ (es.foldl .mul e) = μ e + total μ es := by
    induction es generalizing e with
    | nil => rfl
    | cons f es ih => rw [List.foldl_cons, ih, h.mul, total_cons, add_assoc]
  cases es with
  | nil => exact h.const one
  | cons e es =>
      rw [total_cons]
      exact fold es e

theorem scaled (c : κ) (e : Expr κ) : μ (scaled c e) = μ e := by
  unfold Expr.scaled
  split
  · rfl
  · rw [h.mul, h.const, zero_add]

end Additive

end Expr

/-! ### Monomials -/

namespace Monomial

variable {ν : String × ℤ → ℕ} {m : Monomial} {key : String} {n : ℤ} {w : ℕ}

/-- The measure of the powers in a monomial together. -/
def total (ν : String × ℤ → ℕ) (m : Monomial) : ℕ := (m.map ν).sum

@[simp] theorem total_nil : total ν [] = 0 := rfl

@[simp] theorem total_cons (p : String × ℤ) (m : Monomial) :
    total ν (p :: m) = ν p + total ν m := by
  simp [total]

/-- A further factor adds at most what it adds to any power of its atom. -/
theorem total_times_le (hnew : ν (key, n) ≤ w) (hold : ∀ j, ν (key, j + n) ≤ ν (key, j) + w) :
    total ν (m.times key n) ≤ total ν m + w := by
  induction m with
  | nil => simpa [Monomial.times] using hnew
  | cons p m ih =>
      obtain ⟨k, j⟩ := p
      simp only [Monomial.times]
      split
      · rename_i hkey
        have := hold j
        simp only [total_cons, ← hkey] at this ⊢
        omega
      · split <;> simp only [total_cons] <;> omega

end Monomial

namespace Expr

variable {μ : Expr κ → ℕ} {ν : String × ℤ → ℕ} {e : Expr κ} {es : List (Expr κ)} {c : κ}
variable {m : Monomial} {s : Collection κ}

/-- A factor measures at least what it adds to a monomial. -/
def Covers (μ : Expr κ → ℕ) (ν : String × ℤ → ℕ) (f : Expr κ) : Prop :=
  ν (f.atomPower.1.text, f.atomPower.2) ≤ μ f ∧
    ∀ j, ν (f.atomPower.1.text, j + f.atomPower.2) ≤ ν (f.atomPower.1.text, j) + μ f

theorem total_addFactors_le (hes : ∀ f ∈ es, f.isConst = false → Covers μ ν f) :
    Monomial.total ν (Collection.addFactors s c m es).2.2 ≤ Monomial.total ν m + total μ es := by
  induction es generalizing s c m with
  | nil => simp [Collection.addFactors]
  | cons f es ih =>
      obtain ⟨hf, hrest⟩ := List.forall_mem_cons.1 hes
      rw [total_cons]
      cases hc : f.isConst with
      | true =>
          obtain ⟨d, rfl⟩ := exists_const_of_isConst hc
          have := ih (s := s) (c := c * d) (m := m) hrest
          rw [Collection.addFactors_const]
          omega
      | false =>
          obtain ⟨hnew, hold⟩ := hf hc
          have hstep := Monomial.total_times_le (m := m) hnew hold
          have := ih (s := s.remember f.atomPower.1.text f.atomPower.1) (c := c)
            (m := m.times f.atomPower.1.text f.atomPower.2) hrest
          rw [Collection.addFactors_cons hc]
          omega

namespace Additive

variable (h : Additive μ)

include h

/-- **A monomial measures no more than its term.** -/
theorem monomial_le (he : ∀ f ∈ e.factors, f.isConst = false → Covers μ ν f) :
    Monomial.total ν e.monomial ≤ μ e := by
  have := total_addFactors_le (s := .empty) (c := one) (m := []) he
  rwa [Monomial.total_nil, zero_add, h.factors] at this

/-- A written term measures as much as its monomial. -/
theorem writtenTerm (hm : ∀ p ∈ m, μ (writtenPower p) = ν p) (c : κ) :
    μ (writtenTerm m c) = Monomial.total ν m := by
  have powers : total μ (m.map writtenPower) = Monomial.total ν m := by
    rw [total, List.map_map, Monomial.total]
    exact congrArg List.sum (List.map_congr_left hm)
  unfold Expr.writtenTerm
  split
  · rename_i hempty
    rw [List.isEmpty_iff.1 hempty, h.const]
    rfl
  · rw [h.product]
    split
    · exact powers
    · rw [total_cons, h.const, zero_add, powers]

end Additive

end Expr

end Reckoner
