/-
**Rebuilt trees are lighter.**

Simplification calls itself on trees that it has rebuilt, and the weight of an expression says how
often that can happen.  This module keeps account of the weight.  Numbers and products weigh
nothing by themselves, so the weight of a product is that of its factors together, and the weight of
a sum is that of its terms and of the signs between them.  Collecting like terms drops terms and
merges factors.  When two factors become one power, the power weighs one more than its atom, and
the factor that is gone weighs one at least.

The weight of an atom is taken from its text, so that it does not depend on the collection in which
the atom is remembered.  That is where identifiers are needed: two atoms of one text and of
different weights would be exchanged for each other.

Main definitions:

* `Reckoner.Expr.weights` — the weights of some expressions together;
* `Reckoner.Monomial.cost`, `Reckoner.Collection.costs` — the weight of a written monomial, and of
  written terms with the signs between them.

Main results:

* `Reckoner.Expr.cost_monomial_le` — a written monomial is no heavier than its term;
* `Reckoner.Expr.weight_writtenSum_ordered` — **a collected sum is no heavier than its terms**.
-/

import Reckoner.Proofs.Additive

set_option autoImplicit false

namespace Reckoner

open Arithmetic (isZero isOne integer? one)

variable {κ : Type} [Number κ]

namespace Expr

variable {a b e f : Expr κ} {es : List (Expr κ)} {c : κ}

/-! ### Factors and terms -/

/-- The weights of some expressions together. -/
def weights (es : List (Expr κ)) : ℕ := (es.map weight).sum

omit [Number κ] in
@[simp] theorem weights_nil : weights ([] : List (Expr κ)) = 0 := rfl

omit [Number κ] in
@[simp] theorem weights_cons (e : Expr κ) (es : List (Expr κ)) :
    weights (e :: es) = e.weight + weights es := by
  simp [weights]

omit [Number κ] in
@[simp] theorem weights_append (es fs : List (Expr κ)) :
    weights (es ++ fs) = weights es + weights fs := by
  simp [weights]

omit [Number κ] in
theorem additive_weight : Additive (κ := κ) weight := ⟨fun _ => rfl, fun _ _ => rfl⟩

omit [Number κ] in
/-- A product weighs as much as its factors. -/
theorem weights_factors (e : Expr κ) : weights e.factors = e.weight := additive_weight.factors e

theorem weight_product (es : List (Expr κ)) : (Collection.product es).weight = weights es :=
  additive_weight.product es

omit [Number κ] in
/-- A factor that is no number has some weight. -/
theorem weight_pos (hf : f.isProduct = false) (hc : f.isConst = false) : 1 ≤ f.weight := by
  cases f with
  | const c => simp [isConst] at hc
  | mul a b => simp [isProduct] at hf
  | _ => simp [weight]

/-- The terms of a multiple of a sum, with a sign between any two of them, weigh no more than the
sum. -/
theorem weights_terms_le (c : κ) (e : Expr κ) :
    weights (terms c e) + (terms c e).length ≤ e.weight + 1 := by
  fun_induction terms c e with
  | case1 c a b iha ihb | case2 c a b iha ihb =>
      simp only [weights_append, List.length_append, weight]
      omega
  | case3 c d => simp [weight]
  | case4 c d b _ ih => simpa [weight] using ih
  | case6 c a d _ _ ih => simpa [weight] using ih
  | _ => simp [additive_weight.scaled]

end Expr

/-! ### Monomials -/

namespace Monomial

open Reckoner.Expr (ofText)

/-- The weight of a written power of an atom. -/
noncomputable def powerCost (κ : Type) [Number κ] (p : String × ℤ) : ℕ :=
  (ofText κ p.1).weight + if p.2 = 1 then 0 else 1

/-- The weight of a written monomial. -/
noncomputable def cost (κ : Type) [Number κ] (m : Monomial) : ℕ := (m.map (powerCost κ)).sum

@[simp] theorem cost_nil : cost κ [] = 0 := rfl

@[simp] theorem cost_cons (p : String × ℤ) (m : Monomial) :
    cost κ (p :: m) = powerCost κ p + cost κ m := by
  simp [cost]

theorem powerCost_add_le (key : String) (j n : ℤ) :
    powerCost κ (key, j + n) ≤ powerCost κ (key, j) + 1 := by
  simp only [powerCost]
  split <;> split <;> omega

end Monomial

namespace Expr

variable {a b e f : Expr κ} {es : List (Expr κ)} {c : κ} {m : Monomial} {s : Collection κ}

open Monomial (cost powerCost)

theorem weight_writtenPower (p : String × ℤ) :
    (writtenPower p : Expr κ).weight = powerCost κ p := by
  unfold writtenPower powerCost
  split <;> simp [weight, ofInt]

theorem weight_writtenTerm (m : Monomial) (c : κ) : (writtenTerm m c).weight = cost κ m :=
  additive_weight.writtenTerm (fun p _ => weight_writtenPower p) c

variable [ExactNumber κ]

/-- The atom of a factor is no heavier than the factor, with its exponent. -/
theorem powerCost_atomPower_le (hnamed : Named f) :
    powerCost κ (f.atomPower.1.text, f.atomPower.2) ≤ f.weight := by
  have hone : min 1 maxExponent = 1 := by decide
  rw [atomPower_eq]
  fun_cases power f with
  | case1 base c n hn hpos =>
      rw [powerCost, ofText_text (onlyNames_pow.1 hnamed).1]
      simp only [weight]
      split <;> omega
  | _ => simp [powerCost, ofText_text hnamed, hone]

/-- **A written monomial is no heavier than its term.** -/
theorem cost_monomial_le (he : ∀ f ∈ e.factors, f.isConst = false → Named f) :
    cost κ e.monomial ≤ e.weight := by
  refine additive_weight.monomial_le fun f hf hc => ?_
  have hatom := powerCost_atomPower_le (he f hf hc)
  have hpos := weight_pos (isProduct_of_mem_factors hf) hc
  exact ⟨hatom, fun j => (Monomial.powerCost_add_le _ j _).trans (by omega)⟩

end Expr

/-! ### Collected sums -/

namespace Collection

variable {l : List (Monomial × κ)} {m : Monomial} {c : κ}

open Monomial (cost)

/-- The weight of some written terms, with a sign between any two of them and one more. -/
noncomputable def costs (l : List (Monomial × κ)) : ℕ := (l.map fun t => cost κ t.1 + 1).sum

@[simp] theorem costs_nil : costs ([] : List (Monomial × κ)) = 0 := rfl

@[simp] theorem costs_cons (t : Monomial × κ) (l : List (Monomial × κ)) :
    costs (t :: l) = cost κ t.1 + 1 + costs l := by
  simp [costs]

theorem costs_accumulate_le : costs (accumulate m c l) ≤ costs l + (cost κ m + 1) := by
  induction l with
  | nil => simp [accumulate]
  | cons t l ih =>
      obtain ⟨k, d⟩ := t
      simp only [accumulate]
      split
      · simp only [costs_cons]
        omega
      · simp only [costs_cons]
        omega

theorem costs_ordered_le (s : Collection κ) : costs s.ordered ≤ costs s.sums := by
  have perm := List.mergeSort_perm (s.sums.filter fun t => !isZero t.2)
    fun t u => u.1.degree ≤ t.1.degree
  have filter_le (p : Monomial × κ → Bool) (l : List (Monomial × κ)) :
      costs (l.filter p) ≤ costs l := by
    induction l with
    | nil => rfl
    | cons t l ih =>
        rw [List.filter_cons]
        split <;> simp only [costs_cons] <;> omega
  calc costs s.ordered = costs (s.sums.filter fun t => !isZero t.2) := (perm.map _).sum_eq
    _ ≤ costs s.sums := filter_le _ _

theorem costs_ofTerms_le [ExactNumber κ] {es : List (Expr κ)}
    (hes : ∀ t ∈ es, ∀ f ∈ t.factors, f.isConst = false → Expr.Named f) :
    costs (ofTerms es).sums ≤ Expr.weights es + es.length := by
  induction es using List.reverseRecOn with
  | nil => simp [ofTerms, empty]
  | append_singleton es t ih =>
      obtain ⟨hes, ht⟩ := List.forall_mem_append.1 hes
      have hsums : (ofTerms (es ++ [t])).sums =
          accumulate t.monomial t.coefficient (ofTerms es).sums := by
        rw [ofTerms, List.foldl_append, List.foldl_cons, List.foldl_nil, addTerm_sums_eq]
        rfl
      have hterm := Expr.cost_monomial_le (ht t List.mem_cons_self)
      have hstep := costs_accumulate_le (l := (ofTerms es).sums) (m := t.monomial)
        (c := t.coefficient)
      have := ih hes
      rw [hsums, Expr.weights_append, List.length_append, Expr.weights_cons]
      simp only [Expr.weights_nil, List.length_singleton]
      omega

end Collection

namespace Expr

variable {l : List (Monomial × κ)} {es : List (Expr κ)}

/-- A written sum weighs as much as its terms and the signs between them. -/
theorem weight_writtenSum (hl : l ≠ []) : (writtenSum l).weight + 1 = Collection.costs l := by
  have append (e : Expr κ) (t : Monomial × κ) :
      (appendWritten e t).weight = e.weight + Monomial.cost κ t.1 + 1 := by
    unfold appendWritten
    split <;> simp [weight, weight_writtenTerm]
  have fold (ts : List (Monomial × κ)) (e : Expr κ) :
      (ts.foldl appendWritten e).weight = e.weight + Collection.costs ts := by
    induction ts generalizing e with
    | nil => rfl
    | cons t ts ih =>
        rw [List.foldl_cons, ih, append, Collection.costs_cons]
        omega
  cases l with
  | nil => exact absurd rfl hl
  | cons t ts =>
      rw [writtenSum, fold, weight_writtenTerm, Collection.costs_cons]
      omega

/-- **A collected sum is no heavier than its terms** with the signs between them. -/
theorem weight_writtenSum_ordered [ExactNumber κ]
    (hes : ∀ t ∈ es, ∀ f ∈ t.factors, f.isConst = false → Named f) :
    (writtenSum (Collection.ofTerms es).ordered).weight ≤ weights es + es.length - 1 := by
  have hle := (Collection.costs_ordered_le _).trans (Collection.costs_ofTerms_le hes)
  by_cases hne : (Collection.ofTerms es).ordered = []
  · rw [hne]
    exact Nat.zero_le _
  · have := weight_writtenSum hne
    omega

end Expr

end Reckoner
