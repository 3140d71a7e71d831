/-
**Expansion leaves nothing to multiply out.**

The terms of an expanded expression contain no sum outside the arguments of functions, denominators
and exponents.  For that every power of a sum has to be multiplied out, so its exponent has to be a
number from zero to sixteen as it stands.  Nothing else is demanded: the collected sum is simplified
once more, and no rule of simplification brings a sum back into a term.  All this holds whatever the
numbers are, because it never matters which numbers are folded.

A power of a sum with another exponent stays in its term, and simplification may still turn it into
one that should have been multiplied out.  It does so when it folds the exponent, when it merges
powers of one base, and when it cancels them in a quotient; nobody multiplies out afterwards.

The only rule that moves a sum at all is the one for a difference from zero, which multiplies the
subtrahend by minus one.  The product is simplified again, and the sum in it has fewer signs than
the difference had, so that the number of nested passes suffices.

Main definitions:

* `Reckoner.Expr.MultipliedOut` — no product with a sum, and no small power of one;
* `Reckoner.Expr.SumFree`, `Reckoner.Expr.IsTermSum` — terms without sums, and sums of such terms;
* `Reckoner.Expr.SmallPowers` — every power of a sum has an exponent that is multiplied out.

Main results:

* `Reckoner.Expr.sumFree_simplify`, `Reckoner.Expr.isTermSum_simplify` — simplification keeps
  terms and sums of terms as they are;
* `Reckoner.Expr.multipliedOut_expand` — **nothing is left to multiply out** when the powers of sums
  are small.
-/

import Reckoner.Expr.Expand
import Reckoner.Proofs.Ratio
import Reckoner.Proofs.Settled

set_option autoImplicit false

namespace Reckoner

namespace Expr

open Arithmetic (isZero isOne one)

variable {κ : Type} {a b e t u : Expr κ}

/-! ### Terms and sums of terms -/

/-- There is no sum outside the arguments of functions, denominators and exponents. -/
def SumFree : Expr κ → Prop
  | .var _ | .const _ | .apply _ _ => True
  | .add _ _ | .sub _ _ => False
  | .mul a b => a.SumFree ∧ b.SumFree
  | .div a _ | .pow a _ => a.SumFree

/-- A sum of terms without sums. -/
def IsTermSum : Expr κ → Prop
  | .add a b | .sub a b => a.IsTermSum ∧ b.IsTermSum
  | e => e.SumFree

/-- The number of signs between the terms of a sum. -/
def signs : Expr κ → ℕ
  | .add a b | .sub a b => a.signs + b.signs + 1
  | _ => 0

@[simp] theorem sumFree_const (c : κ) : SumFree (.const c) := trivial

theorem SumFree.isSum (h : SumFree e) : e.isSum = false := by
  cases e with
  | add | sub => exact h.elim
  | _ => rfl

theorem isTermSum_of_isSum_eq_false (h : e.isSum = false) : IsTermSum e ↔ SumFree e := by
  cases e with
  | add | sub => simp [isSum] at h
  | _ => exact Iff.rfl

theorem signs_of_isSum_eq_false (h : e.isSum = false) : e.signs = 0 := by
  cases e with
  | add | sub => simp [isSum] at h
  | _ => rfl

theorem SumFree.isTermSum (h : SumFree e) : IsTermSum e := (isTermSum_of_isSum_eq_false h.isSum).2 h

theorem isSum_of_signs_eq_zero (h : e.signs = 0) : e.isSum = false := by
  cases e with
  | add | sub => simp [signs] at h
  | _ => rfl

theorem signs_le_weight (e : Expr κ) : e.signs ≤ e.weight := by
  induction e with
  | add a b iha ihb | sub a b iha ihb =>
      simp only [signs, weight]
      omega
  | _ => simp [signs]

variable [Number κ] {es fs : List (Expr κ)} {c : κ} {n : ℕ} {again : Expr κ → Expr κ}

/-- The expressions without sums are closed under products and powers, whatever the exponents. -/
theorem sumFree_family : ProductFamily (κ := κ) SumFree fun _ => True where
  const _ := trivial
  mul := Iff.rfl
  pow := (and_iff_left trivial).symm
  ofInt _ := trivial

/-! ### Terms are simplified to terms -/

/-- An expression without sums is a single term. -/
theorem SumFree.exists_terms_eq (h : SumFree e) (c : κ) : ∃ t, terms c e = [t] ∧ SumFree t := by
  fun_cases terms c e with
  | case1 | case2 => exact h.elim
  | case3 d => exact ⟨_, rfl, trivial⟩
  | case4 d b hsum => simp [h.2.isSum] at hsum
  | case6 a d _ hsum => simp [h.1.isSum] at hsum
  | _ => exact ⟨_, rfl, sumFree_family.scaled h⟩

/-- There are no like terms in a single term. -/
theorem SumFree.collected?_eq (h : SumFree e) : e.collected? = none := by
  obtain ⟨t, ht, -⟩ := h.exists_terms_eq one
  simp [collected?, ht]

/-- A rule takes terms to terms. -/
theorem Rule.sumFree (hagain : ∀ e, SumFree e → SumFree (again e)) {e e' : Expr κ}
    (r : Rule again e e') (h : SumFree e) : SumFree e' := by
  cases r with
  | keep => exact h
  | collect he => simp [h.collected?_eq] at he
  | foldAdd | zeroAdd | addZero | foldSub | subZero | subSelf | zeroSub => exact h.elim
  | foldMul | zeroMul | mulZero | foldDiv | zeroDiv | divSelf => exact trivial
  | foldPow | powZero | onePow | foldApply => exact trivial
  | oneMul => exact h.2
  | mulOne => exact h.1
  | product => exact sumFree_family.simplifyProduct (fun _ _ _ _ => trivial) h
  | divOne => exact h
  | scale => exact hagain _ ⟨trivial, h.2⟩
  | divConst => exact hagain _ ⟨trivial, h⟩
  | @cancel a b _ _ =>
      have base : SumFree a.baseAndExponent.1 := (sumFree_family.baseAndExponent (e := a) h).1
      exact hagain _ base
  | powOne => exact h
  | powPow => exact hagain _ h

theorem sumFree_simplifyWith (hagain : ∀ e, SumFree e → SumFree (again e)) (h : SumFree e) :
    SumFree (e.simplifyWith again) := by
  induction e with
  | var | const => exact trivial
  | add | sub => exact h.elim
  | mul a b iha ihb => exact (simplifyMul_rule _ _).sumFree hagain ⟨iha h.1, ihb h.2⟩
  | div a b iha _ =>
      exact (simplifyDiv_rule _ (b.simplifyWith again)).sumFree hagain (iha h)
  | pow a b iha _ =>
      exact (simplifyPow_rule _ (b.simplifyWith again)).sumFree hagain (iha h)
  | apply f a _ => exact (simplifyApply_rule f (a.simplifyWith again)).sumFree hagain trivial

theorem sumFree_simplifyWithin (n : ℕ) (e : Expr κ) (h : SumFree e) :
    SumFree (simplifyWithin n e) := by
  induction n generalizing e with
  | zero => exact sumFree_simplifyWith (fun _ => id) h
  | succ n ih => exact sumFree_simplifyWith ih h

/-- **Terms are simplified to terms.** -/
theorem sumFree_simplify (h : SumFree e) : SumFree e.simplify :=
  sumFree_simplifyWithin e.weight e h

/-! ### Sums of terms are simplified to sums of terms -/

/-- A sum of terms is taken apart into its terms, one more than there are signs. -/
theorem IsTermSum.terms (h : IsTermSum e) (c : κ) :
    (∀ t ∈ terms c e, SumFree t) ∧ (terms c e).length = e.signs + 1 := by
  induction e generalizing c with
  | add a b iha ihb =>
      obtain ⟨ha, hla⟩ := iha h.1 c
      obtain ⟨hb, hlb⟩ := ihb h.2 c
      refine ⟨List.forall_mem_append.2 ⟨ha, hb⟩, ?_⟩
      simp only [Expr.terms, List.length_append, hla, hlb, signs]
      omega
  | sub a b iha ihb =>
      obtain ⟨ha, hla⟩ := iha h.1 c
      obtain ⟨hb, hlb⟩ := ihb h.2 (-c)
      refine ⟨List.forall_mem_append.2 ⟨ha, hb⟩, ?_⟩
      simp only [Expr.terms, List.length_append, hla, hlb, signs]
      omega
  | _ =>
      obtain ⟨t, ht, hfree⟩ := SumFree.exists_terms_eq h c
      simp [ht, hfree, signs]

/-- A sum of terms that came out of another sum, without additional signs. -/
structure FlatFrom (e u : Expr κ) : Prop where
  /-- It is a sum of terms. -/
  flat : IsTermSum u
  /-- No sign is added. -/
  signs_le : u.signs ≤ e.signs

omit [Number κ] in
theorem FlatFrom.mono {e' : Expr κ} (h : FlatFrom e u) (hle : e.signs ≤ e'.signs) :
    FlatFrom e' u := ⟨h.flat, h.signs_le.trans hle⟩

omit [Number κ] in
theorem SumFree.flatFrom (h : SumFree u) (e : Expr κ) : FlatFrom e u :=
  ⟨h.isTermSum, by simp [signs_of_isSum_eq_false h.isSum]⟩

/-- Like terms are added to one of them, so that a collection has no more terms than it is
collected from. -/
theorem length_ordered_ofTerms_le (es : List (Expr κ)) :
    (Collection.ofTerms es).ordered.length ≤ es.length := by
  have accumulate_le (m : Monomial) (c : κ) (l : List (Monomial × κ)) :
      (Collection.accumulate m c l).length ≤ l.length + 1 := by
    induction l with
    | nil => simp [Collection.accumulate]
    | cons t l ih =>
        simp only [Collection.accumulate]
        split <;> simp [ih]
  have sums_le (es : List (Expr κ)) (s : Collection κ) :
      (es.foldl Collection.addTerm s).sums.length ≤ s.sums.length + es.length := by
    induction es generalizing s with
    | nil => simp
    | cons e es ih =>
        have step : (s.addTerm e).sums.length ≤ s.sums.length + 1 := by
          rw [Collection.addTerm_sums]
          exact accumulate_le _ _ _
        have := ih (s.addTerm e)
        simp only [List.foldl_cons, List.length_cons]
        omega
  calc (Collection.ofTerms es).ordered.length
      ≤ (Collection.ofTerms es).sums.length := by
        rw [Collection.ordered, List.length_mergeSort]
        exact List.length_filter_le _ _
    _ ≤ es.length := by simpa [Collection.ofTerms, Collection.empty] using sums_le es .empty

/-- Collected terms are written as a sum of terms. -/
theorem flat_toExpr {s : Collection κ} (hs : s.Over SumFree) :
    IsTermSum s.toExpr ∧ s.toExpr.signs ≤ s.ordered.length - 1 := by
  have term (t : Monomial × κ) (ht : s.Knows t.1) (c : κ) : SumFree (s.term t.1 c) :=
    sumFree_family.term hs ht c
  have append (sum : Expr κ) (t : Monomial × κ) (ht : s.Knows t.1) (hsum : IsTermSum sum) :
      IsTermSum (s.appendTerm sum t) ∧ (s.appendTerm sum t).signs = sum.signs + 1 := by
    unfold Collection.appendTerm
    split
    all_goals
      have hterm := term t ht
      exact ⟨⟨hsum, (hterm _).isTermSum⟩, by
        simp [signs, signs_of_isSum_eq_false (hterm _).isSum]⟩
  have fold (ts : List (Monomial × κ)) (sum : Expr κ) (hts : ∀ t ∈ ts, s.Knows t.1)
      (hsum : IsTermSum sum) : IsTermSum (ts.foldl s.appendTerm sum) ∧
        (ts.foldl s.appendTerm sum).signs = sum.signs + ts.length := by
    induction ts generalizing sum with
    | nil => exact ⟨hsum, rfl⟩
    | cons t ts ih =>
        obtain ⟨ht, hts⟩ := List.forall_mem_cons.1 hts
        obtain ⟨hflat, hsigns⟩ := append sum t ht hsum
        obtain ⟨hfold, hcount⟩ := ih _ hts hflat
        exact ⟨hfold, by rw [List.foldl_cons, hcount, hsigns, List.length_cons]; omega⟩
  have known : ∀ t ∈ s.ordered, s.Knows t.1 := fun t ht =>
    hs.sums t (Collection.mem_sums_of_mem_ordered ht)
  unfold Collection.toExpr
  split
  · exact ⟨trivial, Nat.zero_le _⟩
  · rename_i t ts ho
    rw [ho] at known ⊢
    obtain ⟨ht, hts⟩ := List.forall_mem_cons.1 known
    have hterm := term t ht t.2
    obtain ⟨hflat, hsigns⟩ := fold ts _ hts hterm.isTermSum
    refine ⟨hflat, ?_⟩
    rw [hsigns, signs_of_isSum_eq_false hterm.isSum]
    simp

/-- Like terms are collected to a sum of terms. -/
theorem flat_collected? {e' : Expr κ} (hterms : ∀ t ∈ e.terms one, SumFree t)
    (he : e.collected? = some e') :
    IsTermSum e' ∧ e'.signs ≤ (e.terms one).length - 1 := by
  unfold collected? at he
  dsimp only at he
  split at he
  · simp at he
  · obtain rfl := Option.some.inj he
    have hover : (Collection.ofTerms (e.terms one)).Over SumFree :=
      Collection.ofTerms_over fun t ht f hf _ =>
        sumFree_family.atomPower (sumFree_family.factors (hterms t ht) f hf)
    obtain ⟨hflat, hsigns⟩ := flat_toExpr hover
    have := length_ordered_ofTerms_le (e.terms one)
    exact ⟨hflat, by omega⟩

theorem IsTermSum.collected? {e' : Expr κ} (h : IsTermSum e) (he : e.collected? = some e') :
    FlatFrom e e' := by
  obtain ⟨hterms, hlength⟩ := h.terms one
  obtain ⟨hflat, hsigns⟩ := flat_collected? hterms he
  exact ⟨hflat, by omega⟩

theorem flatFrom_add (ha : IsTermSum a) (hb : IsTermSum b) :
    FlatFrom (.add a b) (simplifyAdd a b) := by
  have hrule : Rule id (.add a b) (simplifyAdd a b) := simplifyAdd_rule a b
  generalize simplifyAdd a b = u at hrule
  cases hrule with
  | keep => exact ⟨⟨ha, hb⟩, le_rfl⟩
  | collect h => exact IsTermSum.collected? ⟨ha, hb⟩ h
  | foldAdd => exact (sumFree_const _).flatFrom _
  | zeroAdd => exact ⟨hb, by simp only [signs]; omega⟩
  | addZero => exact ⟨ha, by simp only [signs]; omega⟩

theorem flatFrom_sub (hagain : FlatFrom b (again b.negated)) (ha : IsTermSum a) (hb : IsTermSum b) :
    FlatFrom (.sub a b) (simplifySub again a b) := by
  have hrule : Rule again (.sub a b) (simplifySub again a b) := simplifySub_rule a b
  generalize simplifySub again a b = u at hrule
  cases hrule with
  | keep => exact ⟨⟨ha, hb⟩, le_rfl⟩
  | collect h => exact IsTermSum.collected? ⟨ha, hb⟩ h
  | foldSub | subSelf => exact (sumFree_const _).flatFrom _
  | subZero => exact ⟨ha, by simp only [signs]; omega⟩
  | zeroSub => exact hagain.mono (by simp only [signs]; omega)

/-- A number is multiplied out over a sum of terms. -/
theorem flatFrom_scaled (hagain : ∀ e, SumFree e → SumFree (again e)) (h : IsTermSum b) :
    FlatFrom b (simplifyMul again (.const c) b) := by
  cases hsum : b.isSum with
  | false =>
      have hfree := (isTermSum_of_isSum_eq_false hsum).1 h
      exact ((simplifyMul_rule (.const c) b).sumFree hagain ⟨trivial, hfree⟩).flatFrom _
  | true =>
      have hterms : (Expr.mul (.const c) b).terms one = b.terms (one * c) := by
        rw [Expr.terms, if_pos hsum]
      have hcollected : FlatFrom b
          ((Expr.mul (.const c) b).collected?.getD (.mul (.const c) b)) := by
        obtain ⟨hfree, hlength⟩ := h.terms (one * c)
        obtain ⟨u, hu⟩ := exists_collected? (e := .mul (.const c) b) (by
          rw [hterms]
          exact two_le_length_terms hsum _)
        obtain ⟨hflat, hsigns⟩ := flat_collected? (by rwa [hterms]) hu
        rw [hterms] at hsigns
        rw [hu]
        exact ⟨hflat, by simp only [Option.getD_some]; omega⟩
      have heq : simplifyMul again (.const c) b = if isZero c then ofInt 0
          else if isOne c then b
          else (Expr.mul (.const c) b).collected?.getD (.mul (.const c) b) := by
        cases b with
        | add | sub => simp [simplifyMul, isZeroConst, isOneConst, isConst, isSum]
        | _ => simp [isSum] at hsum
      rw [heq]
      split
      · exact (sumFree_const _).flatFrom _
      · split
        · exact ⟨h, le_rfl⟩
        · exact hcollected

/-- One pass over a sum of terms, if sums with fewer signs are negated to sums of terms. -/
theorem flatFrom_simplifyWith (hfree : ∀ e, SumFree e → SumFree (again e))
    (hagain : ∀ b, IsTermSum b → b.signs < n → FlatFrom b (again b.negated)) (h : IsTermSum e)
    (hn : e.signs ≤ n) : FlatFrom e (e.simplifyWith again) := by
  induction e with
  | add a b iha ihb =>
      simp only [signs] at hn
      have ha := iha h.1 (by omega)
      have hb := ihb h.2 (by omega)
      refine (flatFrom_add ha.flat hb.flat).mono ?_
      simpa only [signs] using Nat.add_le_add_right (Nat.add_le_add ha.signs_le hb.signs_le) 1
  | sub a b iha ihb =>
      simp only [signs] at hn
      have ha := iha h.1 (by omega)
      have hb := ihb h.2 (by omega)
      have hlt : (b.simplifyWith again).signs < n := by
        have := hb.signs_le
        omega
      refine (flatFrom_sub (hagain _ hb.flat hlt) ha.flat hb.flat).mono ?_
      simpa only [signs] using Nat.add_le_add_right (Nat.add_le_add ha.signs_le hb.signs_le) 1
  | _ => exact (sumFree_simplifyWith hfree h).flatFrom _

theorem flatFrom_simplifyWithin (n : ℕ) : ∀ e : Expr κ, IsTermSum e → e.signs ≤ n →
    FlatFrom e (simplifyWithin n e) := by
  induction n with
  | zero =>
      intro e h hn
      exact flatFrom_simplifyWith (n := 0) (fun _ => id) (fun _ _ hlt => absurd hlt (by omega)) h hn
  | succ n ih =>
      intro e h hn
      refine flatFrom_simplifyWith (sumFree_simplifyWithin n) (fun b hb hlt => ?_) h hn
      have hb' := ih b hb (Nat.lt_succ_iff.1 hlt)
      -- a product with a number is one pass over the sum and one more operation
      cases n with
      | zero => exact (flatFrom_scaled (fun _ => id) hb'.flat).mono hb'.signs_le
      | succ n =>
          exact (flatFrom_scaled (sumFree_simplifyWithin n) hb'.flat).mono hb'.signs_le

/-- **Sums of terms are simplified to sums of terms.** -/
theorem isTermSum_simplify (h : IsTermSum e) : IsTermSum e.simplify :=
  (flatFrom_simplifyWithin e.weight e h (signs_le_weight e)).flat

/-! ### Terms of an expansion -/

theorem isTermSum_sumOf (h : ∀ t ∈ es, SumFree t) : IsTermSum (sumOf es) :=
  sumOf_induction trivial (fun _ => SumFree.isTermSum) (fun _ _ ha ht => ⟨ha, ht.isTermSum⟩) h

theorem isTermSum_collect (h : ∀ t ∈ es, SumFree t) : IsTermSum (collect es) :=
  isTermSum_simplify (isTermSum_sumOf h)

theorem sumFree_collect (hlength : es.length < 2) (h : ∀ t ∈ es, SumFree t) :
    SumFree (collect es) := by
  cases es with
  | nil => exact sumFree_simplify (e := ofInt 0) trivial
  | cons t ts =>
      cases ts with
      | nil => exact sumFree_simplify (h t List.mem_cons_self)
      | cons => simp at hlength

omit [Number κ] in
theorem sumFree_crossProduct (hes : ∀ t ∈ es, SumFree t) (hfs : ∀ t ∈ fs, SumFree t) :
    ∀ t ∈ crossProduct es fs, SumFree t :=
  forall_mem_crossProduct fun a ha b hb => ⟨hes a ha, hfs b hb⟩

variable {split : Expr κ → List (Expr κ)}

/-- A term is expanded to a single term. -/
theorem SumFree.exists_expandedTerms_eq (split : Expr κ → List (Expr κ)) (h : SumFree e) :
    ∃ t, e.expandedTermsWith split = [t] ∧ SumFree t := by
  induction e with
  | var | const => exact ⟨_, rfl, trivial⟩
  | add | sub => exact h.elim
  | mul a b iha ihb =>
      obtain ⟨t, ht, htfree⟩ := iha h.1
      obtain ⟨u, hu, hufree⟩ := ihb h.2
      exact ⟨.mul t u, by simp [expandedTermsWith, ht, hu, crossProduct], htfree, hufree⟩
  | div a b iha _ =>
      obtain ⟨t, ht, htfree⟩ := iha h
      exact ⟨.div t (collect (b.expandedTermsWith split)), by simp [expandedTermsWith, ht], htfree⟩
  | pow a b iha _ =>
      obtain ⟨t, ht, htfree⟩ := iha h
      unfold expandedTermsWith
      dsimp only
      rw [ht]
      split
      · exact ⟨_, if_pos (by simp), sumFree_simplify htfree⟩
      · exact ⟨_, rfl, sumFree_simplify htfree⟩
  | apply f a _ => exact ⟨_, rfl, trivial⟩

/-- A sum of terms is expanded to terms. -/
theorem IsTermSum.sumFree_expandedTerms (h : IsTermSum e) :
    ∀ t ∈ e.expandedTermsWith split, SumFree t := by
  induction e with
  | add a b iha ihb => exact List.forall_mem_append.2 ⟨iha h.1, ihb h.2⟩
  | sub a b iha ihb =>
      exact List.forall_mem_append.2 ⟨iha h.1, List.forall_mem_map.2 fun t ht =>
        ⟨trivial, ihb h.2 t ht⟩⟩
  | _ =>
      obtain ⟨t, ht, hfree⟩ := SumFree.exists_expandedTerms_eq split h
      simpa [ht] using hfree

theorem sumFree_powerTerms (hsplit : ∀ e, IsTermSum e → ∀ t ∈ split e, SumFree t)
    (hes : ∀ t ∈ es, SumFree t) (n : ℕ) : ∀ t ∈ powerTerms split es n, SumFree t := by
  induction n with
  | zero => simp [powerTerms, SumFree]
  | succ n ih => exact hsplit _ (isTermSum_collect (sumFree_crossProduct ih hes))

/-! ### Expansion -/

/-- Every power of a sum has an exponent that is multiplied out: a number that is an integer from
zero to sixteen. -/
def SmallPowers : Expr κ → Prop
  | .var _ | .const _ | .apply _ _ => True
  | .add a b | .sub a b | .mul a b => a.SmallPowers ∧ b.SmallPowers
  | .div a _ => a.SmallPowers
  | .pow a b => a.SumFree ∨ a.SmallPowers ∧ b.expandedExponent?.isSome = true

/-- Outside the arguments of functions, denominators and exponents, no product has a sum among its
factors, and no sum is raised to an integer from two to sixteen. -/
def MultipliedOut : Expr κ → Prop
  | .var _ | .const _ | .apply _ _ => True
  | .add a b | .sub a b => a.MultipliedOut ∧ b.MultipliedOut
  | .mul a b => a.isSum = false ∧ b.isSum = false ∧ a.MultipliedOut ∧ b.MultipliedOut
  | .div a _ => a.MultipliedOut
  | .pow a b => a.MultipliedOut ∧ (a.isSum = true → ∀ n, b.expandedExponent? = some n → n < 2)

theorem SumFree.multipliedOut (h : SumFree e) : MultipliedOut e := by
  induction e with
  | var | const | apply => exact trivial
  | add | sub => exact h.elim
  | mul a b iha ihb => exact ⟨h.1.isSum, h.2.isSum, iha h.1, ihb h.2⟩
  | div a b iha _ => exact iha h
  | pow a b iha _ => exact ⟨iha h, fun hsum => by simp [SumFree.isSum (e := a) h] at hsum⟩

theorem IsTermSum.multipliedOut (h : IsTermSum e) : MultipliedOut e := by
  induction e with
  | add a b iha ihb | sub a b iha ihb => exact ⟨iha h.1, ihb h.2⟩
  | _ => exact SumFree.multipliedOut h

/-- Small powers are expanded to terms without sums. -/
theorem SmallPowers.sumFree_expandedTerms (hsplit : ∀ e, IsTermSum e → ∀ t ∈ split e, SumFree t)
    (h : SmallPowers e) : ∀ t ∈ e.expandedTermsWith split, SumFree t := by
  induction e with
  | var | const | apply => simp [expandedTermsWith, SumFree]
  | add a b iha ihb => exact List.forall_mem_append.2 ⟨iha h.1, ihb h.2⟩
  | sub a b iha ihb =>
      exact List.forall_mem_append.2 ⟨iha h.1, List.forall_mem_map.2 fun t ht =>
        ⟨trivial, ihb h.2 t ht⟩⟩
  | mul a b iha ihb => exact sumFree_crossProduct (iha h.1) (ihb h.2)
  | div a b iha _ => exact List.forall_mem_map.2 (iha h)
  | pow a b iha _ =>
      rcases h with h | ⟨h, hb⟩
      · obtain ⟨t, ht, hfree⟩ := SumFree.exists_expandedTerms_eq (e := .pow a b) split h
        simpa [ht] using hfree
      · obtain ⟨n, hn⟩ := Option.isSome_iff_exists.1 hb
        have hes := iha h
        unfold expandedTermsWith
        dsimp only
        rw [hn]
        dsimp only
        split
        · -- a single term, or none at all, has no sum to be multiplied out
          rename_i hlength
          simpa [SumFree] using sumFree_collect hlength hes
        · exact sumFree_powerTerms hsplit hes n

/-- An expression with small powers is expanded to a sum of terms without sums. -/
theorem SmallPowers.isTermSum_expand (h : SmallPowers e) : IsTermSum e.expand := by
  have hsplit (n : ℕ) (e : Expr κ) (h : IsTermSum e) :
      ∀ t ∈ expandedTermsWithin n e, SumFree t := by
    cases n <;> exact h.sumFree_expandedTerms
  exact isTermSum_collect (h.sumFree_expandedTerms (hsplit _))

/-- **Nothing is left to multiply out.**  Where every power of a sum has an exponent that is
multiplied out, an expanded expression has no product with a sum, and no sum is raised to an integer
from two to sixteen. -/
theorem multipliedOut_expand (h : e.SmallPowers) : e.expand.MultipliedOut :=
  h.isTermSum_expand.multipliedOut

/-- The square of a sum in a quotient, together with a root and a high power of single terms, is
multiplied out. -/
theorem multipliedOut_expand_squareInQuotient :
    let sum : Expr Ratio := .add (.var "x") (ofInt 1)
    let root : Expr Ratio := .pow (.var "y") (.div (ofInt 1) (ofInt 2))
    let e := Expr.mul (.div (.pow sum (ofInt 2)) sum) (.sub root (.pow (.var "x") (ofInt 20)))
    e.SmallPowers ∧ e.expand.MultipliedOut := by
  intro sum root e
  have h : e.SmallPowers :=
    ⟨.inr ⟨⟨trivial, trivial⟩, by cbv⟩, .inl trivial, .inl trivial⟩
  exact ⟨h, multipliedOut_expand h⟩

/-- `(x + 1) ^ (1 + 1)`, whose exponent is folded after everything else has been multiplied out. -/
theorem not_multipliedOut_foldedExponent :
    ¬(Expr.pow (.add (.var "x") (ofInt 1)) (.add (ofInt 1) (ofInt 1)) :
      Expr Ratio).expand.MultipliedOut := by
  have hexpand : (Expr.pow (.add (.var "x") (ofInt 1)) (.add (ofInt 1) (ofInt 1)) :
      Expr Ratio).expand = .pow (.add (.var "x") (ofInt 1)) (ofInt 2) := same_iff_eq.1 (by cbv)
  rw [hexpand]
  intro h
  exact absurd (h.2 rfl 2 (by cbv)) (by decide)

end Expr

end Reckoner
