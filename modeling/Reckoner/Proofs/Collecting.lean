/-
**Collecting like terms keeps the value.**

The monomials of a collection are written with texts instead of atoms.  Since the text of an
expression determines it, every text of an atom stands for one value and one degree, and with
these a monomial, a collection and the expression rebuilt from it have the value of the terms that
were collected.

Degrees do not grow either: merging like terms only drops terms.  That a sum of simplified terms
has positive degree rests on every monomial having one coefficient, so that at most one of them is
empty.

Main definitions:

* `Reckoner.Expr.Assigns` — the value and the degrees of every text of an atom;
* `Reckoner.Monomial.value`, `Reckoner.Monomial.weight` — the value and the degree of a monomial;
* `Reckoner.Collection.total`, `Reckoner.Collection.largest`, `Reckoner.Collection.overall` —
  the value of a sum of monomials, their largest degree and their degrees together.

Main results:

* `Reckoner.Expr.exists_assigns` — the texts of atoms have values and degrees;
* `Reckoner.Collection.ofTerms_total` — a collection of terms has the value of their sum;
* `Reckoner.Collection.toExpr_graded` — the expression rebuilt from a collection has its value;
* `Reckoner.Expr.Graded.collected?` — **collecting like terms keeps the value and the degrees**.
-/

import Reckoner.Proofs.LikeTerms
import Reckoner.Proofs.Terms

set_option autoImplicit false

namespace Reckoner

open Arithmetic (isZero isOne isNegative one)

variable {κ : Type} [Number κ] {K : Type} [Field K]

/-! ### The values of texts -/

namespace Expr

/-- Every text of an expression with value and degrees is assigned its value and degrees. -/
def Assigns (κ : Type) [Number κ] (I : Functions K) (σ : Scope K) (g : Grading)
    (ρ : String → K) (ω τ : String → ℕ) : Prop :=
  ∀ (a : Expr κ) (u : K) (i k : ℕ), Graded 1 I σ g a u i k →
    ρ a.text = u ∧ ω a.text ≤ i ∧ τ a.text ≤ k ∧ Graded 1 I σ g a u (ω a.text) (τ a.text)

/-- The texts of atoms have values and degrees, because no two atoms share a text. -/
theorem exists_assigns (κ : Type) [Number κ] [ExactNumber κ] [CharZero K] (I : Functions K)
    (σ : Scope K) (g : Grading) :
    ∃ (ρ : String → K) (ω τ : String → ℕ), Assigns κ I σ g ρ ω τ := by
  classical
  have entry : ∀ key : String, ∃ p : K × ℕ × ℕ, ∀ (a : Expr κ) (u : K) (i k : ℕ), a.text = key →
      Graded 1 I σ g a u i k →
        p.1 = u ∧ p.2.1 ≤ i ∧ p.2.2 ≤ k ∧ Graded 1 I σ g a u p.2.1 p.2.2 := by
    intro key
    by_cases h : ∃ (a : Expr κ) (u : K) (i k : ℕ), a.text = key ∧ Graded 1 I σ g a u i k
    · obtain ⟨a, u, i, k, ha, hu⟩ := h
      -- the least degrees are met together
      have hi : ∃ i k, Graded 1 I σ g a u i k := ⟨i, k, hu⟩
      have hk : ∃ k i, Graded 1 I σ g a u i k := ⟨k, i, hu⟩
      obtain ⟨k', hk'⟩ := Nat.find_spec hi
      obtain ⟨i', hi'⟩ := Nat.find_spec hk
      have least := hk'.inf hi'
      rw [min_eq_left (Nat.find_min' hi ⟨_, hi'⟩), min_eq_right (Nat.find_min' hk ⟨_, hk'⟩)]
        at least
      refine ⟨(u, Nat.find hi, Nat.find hk), fun b w j l hb hw => ?_⟩
      obtain rfl := text_inj hu.named hw.named (ha.trans hb.symm)
      obtain rfl := hu.unique hw
      exact ⟨rfl, Nat.find_min' hi ⟨_, hw⟩, Nat.find_min' hk ⟨_, hw⟩, least⟩
    · exact ⟨(0, 0, 0), fun a u i k ha hu => absurd ⟨a, u, i, k, ha, hu⟩ h⟩
  choose p hp using entry
  exact ⟨fun key => (p key).1, fun key => (p key).2.1, fun key => (p key).2.2,
    fun a u i k hu => hp a.text a u i k rfl hu⟩

end Expr

/-! ### Monomials -/

namespace Monomial

/-- The value of a monomial. -/
def value (ρ : String → K) (m : Monomial) : K := (m.map fun p => ρ p.1 ^ p.2.toNat).prod

/-- The degree of a monomial, with the degrees of its atoms. -/
def weight (ω : String → ℕ) (m : Monomial) : ℕ := (m.map fun p => p.2.toNat * ω p.1).sum

variable {ρ : String → K} {ω : String → ℕ} {m : Monomial} {n : ℤ}

@[simp] theorem value_nil : value ρ [] = 1 := rfl

@[simp] theorem weight_nil : weight ω [] = 0 := rfl

@[simp] theorem value_cons (p : String × ℤ) (m : Monomial) :
    value ρ (p :: m) = ρ p.1 ^ p.2.toNat * value ρ m := by
  simp [value]

@[simp] theorem weight_cons (p : String × ℤ) (m : Monomial) :
    weight ω (p :: m) = p.2.toNat * ω p.1 + weight ω m := by
  simp [weight]

theorem times_value (key : String) (hm : ∀ p ∈ m, 0 < p.2) (hn : 0 < n) :
    value ρ (m.times key n) = value ρ m * ρ key ^ n.toNat := by
  induction m with
  | nil => simp [times]
  | cons p m ih =>
      obtain ⟨k, j⟩ := p
      obtain ⟨hj, hm⟩ := List.forall_mem_cons.1 hm
      simp only [times]
      split
      · rename_i hk
        subst hk
        rw [value_cons, value_cons, Int.toNat_add hj.le hn.le, pow_add]
        ring
      · split
        · rw [value_cons, mul_comm]
        · rw [value_cons, ih hm, value_cons, mul_assoc]

theorem times_weight (key : String) (hm : ∀ p ∈ m, 0 < p.2) (hn : 0 < n) :
    weight ω (m.times key n) = weight ω m + n.toNat * ω key := by
  induction m with
  | nil => simp [times]
  | cons p m ih =>
      obtain ⟨k, j⟩ := p
      obtain ⟨hj, hm⟩ := List.forall_mem_cons.1 hm
      simp only [times]
      split
      · rename_i hk
        subst hk
        rw [weight_cons, weight_cons, Int.toNat_add hj.le hn.le, add_mul]
        ring
      · split
        · rw [weight_cons, add_comm]
        · rw [weight_cons, ih hm, weight_cons, add_assoc]

end Monomial

/-! ### Collections -/

namespace Collection

open Reckoner.Expr (Assigns Graded SumGraded ProductGraded)

/-- The value of a sum of monomials. -/
def total (ρ : String → K) (l : List (Monomial × κ)) : K :=
  (l.map fun t => valueIn K t.2 * t.1.value ρ).sum

/-- The largest degree of a sum of monomials. -/
def largest (ω : String → ℕ) (l : List (Monomial × κ)) : ℕ :=
  l.foldr (fun t d => max (t.1.weight ω) d) 0

/-- The degrees of a sum of monomials together. -/
def overall (ω : String → ℕ) (l : List (Monomial × κ)) : ℕ :=
  (l.map fun t => t.1.weight ω).sum

variable {ρ : String → K} {ω τ : String → ℕ} {g : Grading} {m : Monomial} {c : κ}
variable {l l' : List (Monomial × κ)}

@[simp] theorem total_nil : total ρ ([] : List (Monomial × κ)) = 0 := rfl

omit [Number κ] in
@[simp] theorem largest_nil : largest ω ([] : List (Monomial × κ)) = 0 := rfl

omit [Number κ] in
@[simp] theorem overall_nil : overall ω ([] : List (Monomial × κ)) = 0 := rfl

@[simp] theorem total_cons (t : Monomial × κ) :
    total ρ (t :: l) = valueIn K t.2 * t.1.value ρ + total ρ l := by
  simp [total]

omit [Number κ] in
@[simp] theorem largest_cons (t : Monomial × κ) :
    largest ω (t :: l) = max (t.1.weight ω) (largest ω l) := rfl

omit [Number κ] in
@[simp] theorem overall_cons (t : Monomial × κ) :
    overall ω (t :: l) = t.1.weight ω + overall ω l := by
  simp [overall]

omit [Number κ] in
theorem largest_perm (h : l.Perm l') : largest ω l = largest ω l' := by
  induction h with
  | nil => rfl
  | cons t _ ih => rw [largest_cons, largest_cons, ih]
  | swap t u l => simp only [largest_cons, max_left_comm]
  | trans _ _ ih ih' => rw [ih, ih']

omit [Number κ] in
theorem overall_perm (h : l.Perm l') : overall ω l = overall ω l' := (h.map _).sum_eq

omit [Number κ] in
/-- Leaving out terms does not raise degrees. -/
theorem filter_le (p : Monomial × κ → Bool) :
    largest ω (l.filter p) ≤ largest ω l ∧ overall τ (l.filter p) ≤ overall τ l := by
  induction l with
  | nil => exact ⟨le_rfl, le_rfl⟩
  | cons t l ih =>
      rw [List.filter_cons, largest_cons, overall_cons]
      split
      · rw [largest_cons, overall_cons]
        omega
      · omega

/-- A like term does not raise degrees more than any other term. -/
theorem accumulate_le :
    largest ω (accumulate m c l) ≤ max (largest ω l) (m.weight ω) ∧
      overall τ (accumulate m c l) ≤ overall τ l + m.weight τ := by
  induction l with
  | nil => simp [accumulate]
  | cons t l ih =>
      obtain ⟨k, d⟩ := t
      simp only [accumulate]
      split
      · exact ⟨le_max_left _ _, Nat.le_add_right _ _⟩
      · rw [largest_cons, overall_cons, largest_cons, overall_cons]
        omega

theorem accumulate_keys : (accumulate m c l).map Prod.fst = l.map Prod.fst ∨
    (accumulate m c l).map Prod.fst = l.map Prod.fst ++ [m] ∧ m ∉ l.map Prod.fst := by
  induction l with
  | nil => simp [accumulate]
  | cons t l ih =>
      obtain ⟨k, d⟩ := t
      simp only [accumulate]
      split
      · exact .inl rfl
      · rename_i hk
        rcases ih with ih | ⟨ih, hm⟩
        · exact .inl (by simp [ih])
        · refine .inr ⟨by simp [ih], ?_⟩
          simpa [Ne.symm hk] using hm

/-- Every monomial has one coefficient. -/
theorem nodup_addTerm {s : Collection κ} (e : Expr κ) (h : (s.sums.map Prod.fst).Nodup) :
    ((s.addTerm e).sums.map Prod.fst).Nodup := by
  rw [addTerm_sums]
  rcases accumulate_keys (l := s.sums) with hk | ⟨hk, hm⟩
  · rwa [hk]
  · rw [hk]
    exact List.nodup_append.2 ⟨h, List.nodup_singleton _, by rintro a ha b hb rfl; simp_all⟩

theorem nodup_ofTerms (es : List (Expr κ)) : ((ofTerms es).sums.map Prod.fst).Nodup := by
  have key : ∀ (es : List (Expr κ)) (s : Collection κ), (s.sums.map Prod.fst).Nodup →
      ((es.foldl addTerm s).sums.map Prod.fst).Nodup := by
    intro es
    induction es with
    | nil => exact fun s hs => hs
    | cons e es ih => exact fun s hs => ih _ (nodup_addTerm e hs)
  exact key es empty List.nodup_nil

/-! ### Collected terms -/

section Values

variable {I : Functions K} {σ : Scope K} {s : Collection κ} {es : List (Expr κ)}
variable {e : Expr κ} {v : K} {d q : ℕ}
variable [CharZero K] [ExactNumber κ]

theorem total_accumulate :
    total ρ (accumulate m c l) = total ρ l + valueIn K c * m.value ρ := by
  induction l with
  | nil => simp [accumulate]
  | cons t l ih =>
      obtain ⟨k, d⟩ := t
      simp only [accumulate]
      split
      · rename_i hk
        subst hk
        simp only [total_cons, valueIn_add]
        ring
      · rw [total_cons, total_cons, ih, add_assoc]

/-- The factors of a term are multiplied. -/
theorem addFactors_value (hρ : Assigns κ I σ g ρ ω τ) (h : ProductGraded 0 I σ g es v d q)
    (hm : s.Knows m) :
    valueIn K (addFactors s c m es).2.1 * (addFactors s c m es).2.2.value ρ =
        valueIn K c * m.value ρ * v ∧
      (addFactors s c m es).2.2.weight ω ≤ m.weight ω + d ∧
      (addFactors s c m es).2.2.weight τ ≤ m.weight τ + q := by
  induction h generalizing s c m with
  | nil => simp [addFactors]
  | @cons e es u v i j k l d q he _ _ hd hq ih =>
      cases hc : e.isConst with
      | true =>
          obtain ⟨x, rfl⟩ := Expr.exists_const_of_isConst hc
          obtain ⟨hvalue, hω, hτ⟩ := ih (c := c * x) hm
          rw [addFactors_const, hvalue, valueIn_mul, Expr.hasValue_const_iff.1 he.hasValue]
          refine ⟨by ring, by omega, by omega⟩
      | false =>
          -- the power of the atom joins the monomial under the text of the atom
          obtain ⟨-, w, i', k', hatom, hw, hi', hk'⟩ := he.atomPower hc
          obtain ⟨hρw, hωi, hτk, -⟩ := hρ _ _ _ _ hatom
          have hpos := e.atomPower_pos
          have positive : ∀ p ∈ m, 0 < p.2 := fun p hp => (hm p hp).1
          obtain ⟨hvalue, hω, hτ⟩ := ih (c := c)
            ((hm.remember _ e.atomPower.1).times hpos (exists_lookup_remember ..))
          rw [Monomial.times_weight _ positive hpos] at hω hτ
          rw [addFactors_cons hc, hvalue, Monomial.times_value _ positive hpos, hρw, ← hw]
          have := Nat.mul_le_mul_left e.atomPower.2.toNat hωi
          have := Nat.mul_le_mul_left e.atomPower.2.toNat hτk
          refine ⟨by ring, by omega, by omega⟩

theorem addTerm_total (hρ : Assigns κ I σ g ρ ω τ) (h : Graded 1 I σ g e v d q) :
    total ρ (s.addTerm e).sums = total ρ s.sums + v ∧
      largest ω (s.addTerm e).sums ≤ max (largest ω s.sums) d ∧
      overall τ (s.addTerm e).sums ≤ overall τ s.sums + q := by
  obtain ⟨hvalue, hω, hτ⟩ := addFactors_value (s := s) (c := one) (m := []) hρ h.factors
    (by intro p hp; simp at hp)
  rw [Monomial.weight_nil, Nat.zero_add] at hω hτ
  obtain ⟨hlargest, hoverall⟩ := accumulate_le (ω := ω) (τ := τ) (l := s.sums)
    (m := (addFactors s one [] e.factors).2.2) (c := (addFactors s one [] e.factors).2.1)
  rw [addTerm_sums]
  refine ⟨?_, by omega, by omega⟩
  rw [total_accumulate, hvalue]
  simp

/-- **A collection of terms has the value of their sum.** -/
theorem ofTerms_total (hρ : Assigns κ I σ g ρ ω τ) (h : SumGraded 1 I σ g es v d q) :
    total ρ (ofTerms es).sums = v ∧ largest ω (ofTerms es).sums ≤ d ∧
      overall τ (ofTerms es).sums ≤ q := by
  have key : ∀ (s : Collection κ), total ρ (es.foldl addTerm s).sums = total ρ s.sums + v ∧
      largest ω (es.foldl addTerm s).sums ≤ max (largest ω s.sums) d ∧
      overall τ (es.foldl addTerm s).sums ≤ overall τ s.sums + q := by
    induction h with
    | nil => simp
    | @cons e es u v i j k l d q he _ hd hq ih =>
        intro s
        obtain ⟨hs, hsω, hsτ⟩ := addTerm_total (s := s) hρ he
        obtain ⟨htotal, hω, hτ⟩ := ih (s.addTerm e)
        rw [List.foldl_cons, htotal, hs, add_assoc]
        exact ⟨rfl, by omega, by omega⟩
  simpa [ofTerms, empty] using key empty

/-- What is written down has the value of the whole sum. -/
theorem ordered_total (s : Collection κ) : total ρ s.ordered = total ρ s.sums ∧
    largest ω s.ordered ≤ largest ω s.sums ∧ overall τ s.ordered ≤ overall τ s.sums ∧
    ((s.sums.map Prod.fst).Nodup → (s.ordered.map Prod.fst).Nodup) := by
  have perm := List.mergeSort_perm (s.sums.filter fun t => !isZero t.2)
    fun t u => u.1.degree ≤ t.1.degree
  refine ⟨?_, ?_, ?_, fun h => ?_⟩
  · rw [ordered, total, (perm.map _).sum_eq]
    induction s.sums with
    | nil => rfl
    | cons t l ih =>
        rw [List.filter_cons, total_cons]
        split
        · rw [List.map_cons, List.sum_cons, ih]
        · rename_i hz
          rw [(isZero_iff (K := K)).1 (by simpa using hz), zero_mul, zero_add, ih]
  · rw [ordered, largest_perm perm]
    exact (filter_le (τ := τ) _).1
  · rw [ordered, overall_perm perm]
    exact (filter_le (ω := ω) _).2
  · rw [ordered, (perm.map _).nodup_iff]
    exact h.sublist (List.filter_sublist.map _)

/-! ### Rebuilt expressions -/

/-- What holds of the atoms of simplified terms. -/
def IsAtom (I : Functions K) (σ : Scope K) (g : Grading) (a : Expr κ) : Prop :=
  a.isConst = false ∧ ∃ u i k, Graded 1 I σ g a u i k

omit [CharZero K] in
theorem powerOf_graded (hρ : Assigns κ I σ g ρ ω τ) (hs : s.Over (IsAtom I σ g))
    (hm : s.Knows m) {p : String × ℤ} (hp : p ∈ m)
    (hb : g.Admits (p.2.toNat * ω p.1) (p.2.toNat * τ p.1)) :
    Graded 1 I σ g (s.powerOf p.1 p.2) (ρ p.1 ^ p.2.toNat) (p.2.toNat * ω p.1)
        (p.2.toNat * τ p.1) ∧
      1 ≤ p.2.toNat * ω p.1 := by
  obtain ⟨htext, hconst, u, i, k, hu⟩ := hs.atom hm hp
  have hpos := (hm p hp).1
  obtain ⟨rfl, -, -, hatom⟩ := hρ _ _ _ _ hu
  rw [htext] at hatom
  have hω := hatom.one_le hconst
  have hprod : 1 ≤ p.2.toNat * ω p.1 := Nat.mul_pos (by omega) hω
  refine ⟨?_, hprod⟩
  unfold powerOf
  split
  · rename_i hone
    rw [hone] at hb ⊢
    simpa using hatom
  · have hn : (p.2.toNat : ℤ) = p.2 := Int.toNat_of_nonneg hpos.le
    have habs : p.2.natAbs = p.2.toNat := by omega
    have hneg : (-p.2).toNat = 0 := by omega
    rw [← zpow_natCast, hn]
    refine .pow hatom (.ofInt p.2 Grading.polynomial.admits_zero) (.inr hpos.le) ?_
      (Nat.zero_le _) ?_ hprod hb
    · rw [habs]
    · rw [habs, hneg]
      omega

omit [CharZero K] in
/-- The powers of the atoms of a monomial multiply to its value. -/
theorem powers_graded (hρ : Assigns κ I σ g ρ ω τ) (hs : s.Over (IsAtom I σ g))
    (hm : s.Knows m) (hb : g.Admits (m.weight ω) (m.weight τ)) :
    ProductGraded 1 I σ g (m.map fun p => s.powerOf p.1 p.2) (m.value ρ) (m.weight ω)
      (m.weight τ) := by
  induction m with
  | nil => exact .nil
  | cons p m ih =>
      simp only [Monomial.weight_cons] at hb
      simp only [List.map_cons, Monomial.value_cons, Monomial.weight_cons]
      obtain ⟨hpower, hpos⟩ :=
        powerOf_graded hρ hs hm List.mem_cons_self (hb.mono (by omega) (by omega))
      have hm := fun q hq => hm q (List.mem_cons_of_mem _ hq)
      exact .cons hpower hpos (ih hm (hb.mono (by omega) (by omega))) le_rfl le_rfl

theorem term_graded (hρ : Assigns κ I σ g ρ ω τ) (hs : s.Over (IsAtom I σ g))
    (hm : s.Knows m) (hb : g.Admits (m.weight ω) (m.weight τ)) :
    Graded 1 I σ g (s.term m c) (valueIn K c * m.value ρ) (m.weight ω) (m.weight τ) := by
  have powers := powers_graded hρ hs hm hb
  have number : Graded 1 I σ g (.const c) (valueIn K c) 0 0 := .const c g.admits_zero
  unfold term
  split
  · rename_i hempty
    rw [List.isEmpty_iff.1 hempty]
    simpa using number
  · dsimp only
    split
    · rename_i hone
      rw [(isOne_iff (K := K)).1 hone, one_mul]
      exact powers.product hb
    · simpa using powers.product_cons number (by simpa using hb)

omit [CharZero K] in
/-- A monomial that is not empty has positive degree. -/
theorem weight_pos (hρ : Assigns κ I σ g ρ ω τ) (hs : s.Over (IsAtom I σ g)) (hm : s.Knows m)
    (hne : m ≠ []) (hb : g.Admits (m.weight ω) (m.weight τ)) : 1 ≤ m.weight ω := by
  cases m with
  | nil => exact absurd rfl hne
  | cons p m =>
      simp only [Monomial.weight_cons] at hb ⊢
      have := (powerOf_graded hρ hs hm List.mem_cons_self (hb.mono (by omega) (by omega))).2
      omega

theorem appendTerm_graded (hρ : Assigns κ I σ g ρ ω τ) (hs : s.Over (IsAtom I σ g))
    {t : Monomial × κ} (hm : s.Knows t.1) (he : Graded 1 I σ g e v d q)
    (hpos : 1 ≤ d ∨ t.1 ≠ []) (hb : g.Admits (max d (t.1.weight ω)) (q + t.1.weight τ)) :
    Graded 1 I σ g (s.appendTerm e t) (v + valueIn K t.2 * t.1.value ρ)
      (max d (t.1.weight ω)) (q + t.1.weight τ) := by
  have hbt := hb.mono (le_max_right d (t.1.weight ω)) (Nat.le_add_left (t.1.weight τ) q)
  have hone : 1 ≤ max d (t.1.weight ω) := by
    rcases hpos with hpos | hne
    · exact hpos.trans (le_max_left _ _)
    · exact (weight_pos hρ hs hm hne hbt).trans (le_max_right _ _)
  unfold appendTerm
  split
  · have := he.sub (term_graded (c := -t.2) hρ hs hm hbt) le_rfl le_rfl hone hb
    rwa [valueIn_neg, neg_mul, sub_neg_eq_add] at this
  · exact he.add (term_graded hρ hs hm hbt) le_rfl le_rfl hone hb

/-- One term is added after another.  From the second on, the degree is positive. -/
theorem foldl_appendTerm_graded (hρ : Assigns κ I σ g ρ ω τ) (hs : s.Over (IsAtom I σ g))
    (hl : ∀ t ∈ l, s.Knows t.1) (he : Graded 1 I σ g e v d q)
    (hpos : 1 ≤ d ∨ ∀ t ∈ l, t.1 ≠ []) (hb : g.Admits (max d (largest ω l)) (q + overall τ l)) :
    Graded 1 I σ g (l.foldl s.appendTerm e) (v + total ρ l) (max d (largest ω l))
      (q + overall τ l) := by
  induction l generalizing e v d q with
  | nil => simpa using he
  | cons t l ih =>
      obtain ⟨ht, hl⟩ := List.forall_mem_cons.1 hl
      rw [largest_cons, overall_cons, ← max_assoc, ← Nat.add_assoc] at hb ⊢
      have hfirst : 1 ≤ d ∨ t.1 ≠ [] := hpos.imp_right fun h => h t List.mem_cons_self
      have hsum := appendTerm_graded hρ hs ht he hfirst
        (hb.mono (le_max_left _ _) (Nat.le_add_right _ _))
      have hone := hsum.one_le (by unfold appendTerm; split <;> rfl)
      rw [total_cons, ← add_assoc]
      exact ih hl hsum (.inl hone) hb

/-- **The expression rebuilt from a collection has its value.** -/
theorem toExpr_graded (hρ : Assigns κ I σ g ρ ω τ) (hs : s.Over (IsAtom I σ g))
    (hnodup : (s.sums.map Prod.fst).Nodup)
    (hb : g.Admits (largest ω s.sums) (overall τ s.sums)) :
    Graded 1 I σ g s.toExpr (total ρ s.sums) (largest ω s.sums) (overall τ s.sums) := by
  obtain ⟨htotal, hω, hτ, hkeys⟩ := ordered_total (ρ := ρ) (ω := ω) (τ := τ) s
  have known : ∀ t ∈ s.ordered, s.Knows t.1 := fun t ht => hs.sums t (mem_sums_of_mem_ordered ht)
  unfold toExpr
  rw [← htotal]
  refine Graded.mono ?_ hω hτ hb
  have hb' := hb.mono hω hτ
  replace hkeys := hkeys hnodup
  split
  · rename_i ho
    rw [ho, total_nil]
    exact .ofInt_zero (ho ▸ hb')
  · rename_i t ts ho
    -- the first term starts the sum, the others are appended
    rw [ho] at hkeys known hb' ⊢
    obtain ⟨ht, hts⟩ := List.forall_mem_cons.1 known
    rw [largest_cons, overall_cons] at hb' ⊢
    have hbt := hb'.mono (le_max_left _ _) (Nat.le_add_right _ _)
    rw [total_cons]
    refine foldl_appendTerm_graded hρ hs hts (term_graded hρ hs ht hbt) ?_ hb'
    by_cases hne : t.1 = []
    · -- no other monomial is empty
      refine .inr fun u hu hempty => ?_
      rw [List.map_cons, List.nodup_cons, hne, ← hempty] at hkeys
      exact hkeys.1 (List.mem_map_of_mem hu)
    · exact .inl (weight_pos hρ hs ht hne hbt)

end Values

end Collection

/-- **Collecting like terms keeps the value and the degrees.** -/
theorem Expr.Graded.collected? [CharZero K] [ExactNumber κ] {I : Functions K} {σ : Scope K}
    {g : Grading} {e e' : Expr κ} {v : K} {d q : ℕ} (h : Graded 1 I σ g e v d q)
    (he : e.collected? = some e') : Graded 1 I σ g e' v d q := by
  obtain ⟨ρ, ω, τ, hρ⟩ := exists_assigns κ I σ g
  have hterms := h.terms one
  rw [valueIn_one, one_mul] at hterms
  obtain ⟨htotal, hω, hτ⟩ := Collection.ofTerms_total hρ hterms
  unfold Expr.collected? at he
  dsimp only at he
  split at he
  · simp at he
  · obtain rfl := Option.some.inj he
    have atoms : ∀ t ∈ e.terms one, AtomsOf (Collection.IsAtom I σ g) t.factors := by
      intro t ht f hf hconst
      obtain ⟨u, i, k, hu⟩ := hterms.exists_of_mem ht
      obtain ⟨w, j, l, hw⟩ := hu.factors.exists_of_mem hf
      obtain ⟨hatom, w', j', l', hw', -⟩ := hw.atomPower hconst
      exact ⟨hatom, w', j', l', hw'⟩
    have := Collection.toExpr_graded hρ (Collection.ofTerms_over atoms)
      (Collection.nodup_ofTerms _) (h.admits.mono hω hτ)
    rw [htotal] at this
    exact this.mono hω hτ h.admits

end Reckoner
