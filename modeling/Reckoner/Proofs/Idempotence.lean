/-
**Simplifying once more changes nothing.**

A normal form is left alone by every rule of simplification but one: a number is multiplied out over
a sum behind it.  A number *behind* a sum is not, but it is moved in front of the sum when the
factors are merged; so a product of a sum and a number, such as `(x + 1) * 2`, needs two
simplifications to become a sum.  Where no such product is left, and no exponent is cut down, a
simplified expression is the simplification of itself.

Products and sums are both taken apart and put together again.  The factors of a product in normal
form have different bases, so each is merged with nothing but itself.  The terms of a sum in normal
form have different monomials and descending degrees, so the collection contains just these, in the
same order.

Main definitions:

* `Reckoner.Expr.IsStable` — no number before a sum, and no exponent above the bound.

Main results:

* `Reckoner.Expr.Normal.simplifyProduct_eq` — merging the factors of a product gives it back;
* `Reckoner.Expr.NormalSum.collected?_eq` — collecting the terms of a sum gives it back;
* `Reckoner.Expr.Normal.simplifyWith_eq` — a stable normal form is left alone;
* `Reckoner.Expr.simplify_simplify` — **simplification is idempotent** among expressions with natural
  powers whose simplification is stable.
-/

import Reckoner.Proofs.OrderedSums

set_option autoImplicit false

namespace Reckoner

open Arithmetic (isZero isOne isNegative integer? one)

variable {κ : Type} [Number κ]

namespace Collection

variable {s : Collection κ} {l : List (Monomial × κ)}

/-- Monomials that are new are added at the end. -/
theorem accumulate_of_not_mem {m : Monomial} {c : κ} (h : m ∉ l.map Prod.fst) :
    accumulate m c l = l ++ [(m, c)] := by
  induction l with
  | nil => rfl
  | cons p l ih =>
      obtain ⟨k, d⟩ := p
      rw [List.map_cons, List.mem_cons, not_or] at h
      rw [accumulate, if_neg (Ne.symm h.1), ih h.2, List.cons_append]

/-- Terms of different monomials are filed as they are. -/
theorem sums_ofTerms {es : List (Expr κ)} (h : (es.map Expr.monomial).Nodup) :
    (ofTerms es).sums = es.map fun e => (e.monomial, e.coefficient) := by
  induction es using List.reverseRecOn with
  | nil => rfl
  | append_singleton es e ih =>
      rw [List.map_append, List.nodup_append] at h
      have hnew : e.monomial ∉ (ofTerms es).sums.map Prod.fst := by
        rw [ih h.1, List.map_map]
        exact fun hmem => h.2.2 _ hmem _ (List.mem_singleton_self _) rfl
      have hstep : ofTerms (es ++ [e]) = (ofTerms es).addTerm e := by
        rw [ofTerms, List.foldl_append]
        rfl
      rw [hstep, addTerm_sums_eq, accumulate_of_not_mem hnew, ih h.1, List.map_append]
      rfl

/-- Terms in descending order stay in their order. -/
theorem ordered_of_pairwise (hzero : ∀ t ∈ s.sums, isZero t.2 = false)
    (hp : s.sums.Pairwise fun t u => u.1.degree ≤ t.1.degree) : s.ordered = s.sums := by
  have hfilter : (s.sums.filter fun t => !isZero t.2) = s.sums :=
    List.filter_eq_self.2 fun t ht => by simp [hzero t ht]
  rw [ordered, hfilter]
  exact List.mergeSort_of_pairwise (by simpa using hp)

end Collection

namespace Expr

/-! ### Stable expressions -/

/-- No number is multiplied by a sum behind it, and no exponent is above the bound. -/
def IsStable : Expr κ → Prop
  | .var _ | .const _ => True
  | .add a b | .sub a b | .div a b => a.IsStable ∧ b.IsStable
  | .mul a b => a.IsStable ∧ b.IsStable ∧ (a.isConst = true → b.isSum = false)
  | .pow a b => a.IsStable ∧ b.IsStable ∧ (Expr.pow a b).power.2 ≤ maxExponent
  | .apply _ a => a.IsStable

variable {a b e f u : Expr κ} {c : κ} {m : Monomial} {l : List (Monomial × κ)}
variable {es : List (Expr κ)} {ps : List (Expr κ × Expr κ)} {again : Expr κ → Expr κ}
variable {t : Monomial × κ}

namespace IsStable

theorem factors (h : IsStable e) : ∀ f ∈ e.factors, IsStable f := by
  induction e with
  | mul a b iha ihb => exact List.forall_mem_append.2 ⟨iha h.1, ihb h.2.1⟩
  | _ => exact List.forall_mem_singleton.2 h

theorem summands (h : IsStable e) : ∀ s ∈ e.summands, IsStable s := by
  induction e with
  | add a b iha _ => exact List.forall_mem_append.2 ⟨iha h.1, List.forall_mem_singleton.2 h.2⟩
  | sub a b iha _ => exact List.forall_mem_append.2 ⟨iha h.1, List.forall_mem_singleton.2 h.2⟩
  | _ => exact List.forall_mem_singleton.2 h

theorem power_le (h : IsStable e) : e.power.2 ≤ maxExponent := by
  have hmax : (1 : ℤ) ≤ maxExponent := by decide
  cases e with
  | pow a b => exact h.2.2
  | _ => exact hmax

theorem summands_power_le (h : IsStable e) :
    ∀ s ∈ e.summands, ∀ f ∈ s.factors, f.power.2 ≤ maxExponent :=
  fun s hs f hf => ((h.summands s hs).factors f hf).power_le

end IsStable

/-! ### Products -/

section Exact

variable [ExactNumber κ]

omit [Number κ] [ExactNumber κ] in
theorem factors_ne_nil (e : Expr κ) : e.factors ≠ [] := by
  induction e with
  | mul a b iha _ => exact fun h => iha (List.append_eq_nil_iff.1 h).1
  | _ => exact List.cons_ne_nil _ _

omit [ExactNumber κ] in
/-- A product in normal form is the product of its factors. -/
theorem Normal.product_factors (h : Normal e) : Collection.product e.factors = e := by
  have concat (es : List (Expr κ)) (f : Expr κ) (hes : es ≠ []) :
      Collection.product (es ++ [f]) = .mul (Collection.product es) f := by
    cases es with
    | nil => exact absurd rfl hes
    | cons e es => simp [Collection.product]
  induction e with
  | mul a b iha _ =>
      obtain ⟨ha, -, -, hproduct, -⟩ := h.of_mul
      have hmul : (Expr.mul a b).factors = a.factors ++ b.factors := rfl
      rw [hmul, factors_of_isProduct hproduct, concat _ _ a.factors_ne_nil, iha ha]
  | _ => rfl

/-- A product consists of a number other than zero, which is left out when it is one, and of factors
of different bases. -/
structure HasFactors (e : Expr κ) (c : κ) (fs : List (Expr κ)) : Prop where
  factors_eq : e.factors = if isOne c then fs else .const c :: fs
  isZero : isZero c = false
  ne_nil : fs ≠ []
  normal : ∀ f ∈ fs, NormalFactor f
  different : (fs.map fun f => f.baseAndExponent.1).Nodup

theorem NormalFactor.hasFactors (h : NormalFactor f) : HasFactors f one [f] where
  factors_eq := by
    have hone : isOne (one : κ) = true := isOneConst_ofInt.2 rfl
    rw [h.factors_eq, if_pos hone]
  isZero := isZeroConst_ofInt one_ne_zero
  ne_nil := List.cons_ne_nil _ _
  normal := List.forall_mem_singleton.2 h
  different := List.nodup_singleton _

/-- Normal forms other than numbers are such products. -/
theorem Normal.exists_factors (h : Normal e) (hc : e.isConst = false) :
    ∃ c fs, HasFactors e c fs := by
  induction e with
  | mul a b iha _ =>
      obtain ⟨ha, hb, hconst, hproduct, hzero, hone, hnew⟩ := h.of_mul
      have hfactor : NormalFactor b := ⟨hb, hconst, hproduct⟩
      have hmul : (Expr.mul a b).factors = a.factors ++ [b] := by
        rw [← hfactor.factors_eq]
        rfl
      cases hac : a.isConst with
      | true =>
          obtain ⟨c, rfl⟩ := exists_const_of_isConst hac
          refine ⟨c, [b], ?_, hzero, List.cons_ne_nil _ _, List.forall_mem_singleton.2 hfactor,
            List.nodup_singleton _⟩
          rw [hmul, if_neg (by simpa [isOneConst] using hone)]
          rfl
      | false =>
          obtain ⟨c, fs, hfs⟩ := iha ha hac
          refine ⟨c, fs ++ [b], ?_, hfs.isZero, by simp, ?_, ?_⟩
          · rw [hmul, hfs.factors_eq]
            split <;> rfl
          · exact List.forall_mem_append.2 ⟨hfs.normal, List.forall_mem_singleton.2 hfactor⟩
          · rw [List.map_append, List.nodup_append]
            refine ⟨hfs.different, List.nodup_singleton _, ?_⟩
            intro x hx y hy
            obtain ⟨f, hf, rfl⟩ := List.mem_map.1 hx
            rw [List.map_singleton, List.mem_singleton] at hy
            subst hy
            refine hnew f ?_ (hfs.normal f hf).isConst
            rw [hfs.factors_eq]
            split
            · exact hf
            · exact List.mem_cons_of_mem _ hf
  | _ => exact ⟨one, [_], NormalFactor.hasFactors ⟨h, hc, rfl⟩⟩

theorem mergePower_of_not_mem {base exponent : Expr κ} (h : base ∉ ps.map Prod.fst) :
    mergePower again base exponent ps = ps ++ [(base, exponent)] := by
  induction ps with
  | nil => rfl
  | cons p ps ih =>
      obtain ⟨b, e⟩ := p
      rw [List.map_cons, List.mem_cons, not_or] at h
      rw [mergePower, if_neg (fun hsame => h.1 (same_iff_eq.1 hsame).symm), ih h.2, List.cons_append]

/-- Factors of new and different bases are not merged. -/
theorem mergeFactors_of_nodup (hes : ∀ f ∈ es, f.isConst = false)
    (hnodup : (ps.map Prod.fst ++ es.map fun f => f.baseAndExponent.1).Nodup) :
    mergeFactors again c ps es = (c, ps ++ es.map baseAndExponent) := by
  induction es generalizing ps with
  | nil => simp [mergeFactors]
  | cons f es ih =>
      obtain ⟨hf, hes⟩ := List.forall_mem_cons.1 hes
      rw [List.map_cons, List.append_cons] at hnodup
      have hnew : f.baseAndExponent.1 ∉ ps.map Prod.fst := fun hmem =>
        (List.nodup_append.1 (List.nodup_append.1 hnodup).1).2.2 _ hmem _
          (List.mem_singleton_self _) rfl
      rw [mergeFactors_cons hf, mergePower_of_not_mem hnew, ih hes (by simpa using hnodup)]
      simp

theorem NormalFactor.factor?_eq (h : NormalFactor f) : factor? f.baseAndExponent = some f := by
  obtain ⟨a, n, hn, rfl, -⟩ | ⟨-, hbase⟩ := h.normal.power_eq
  · have hzero : (ofInt n : Expr κ).isZeroConst = false := isZeroConst_ofInt (by omega)
    have hone : ¬(ofInt n : Expr κ).isOneConst = true := by
      rw [isOneConst_ofInt]
      omega
    simp [baseAndExponent, factor?, hzero, hone]
  · have hzero : (ofInt 1 : Expr κ).isZeroConst = false := isZeroConst_ofInt one_ne_zero
    have hone : (ofInt 1 : Expr κ).isOneConst = true := isOneConst_ofInt.2 rfl
    rw [hbase]
    simp [factor?, hzero, hone]

/-- **Merging the factors of a product gives it back.** -/
theorem Normal.simplifyProduct_eq (h : Normal e) (hc : e.isConst = false) :
    simplifyProduct again e = e := by
  obtain ⟨c, fs, hfs⟩ := h.exists_factors hc
  have hmerged (d : κ) : mergeFactors again d [] fs = (d, fs.map baseAndExponent) :=
    mergeFactors_of_nodup (fun f hf => (hfs.normal f hf).isConst) (by simpa using hfs.different)
  have hback : (fs.map baseAndExponent).filterMap factor? = fs := by
    rw [List.filterMap_map]
    exact (List.filterMap_congr fun f hf => (hfs.normal f hf).factor?_eq).trans List.filterMap_some
  have hmerge : mergeFactors again one [] e.factors = (c, fs.map baseAndExponent) := by
    rw [hfs.factors_eq]
    split
    · rename_i hone
      rw [hmerged, ← eq_one_of_isOne hone]
    · rw [mergeFactors_const, hmerged, one_mul_number]
  have hnonempty : (fs.map baseAndExponent).isEmpty = false := by simpa using hfs.ne_nil
  rw [simplifyProduct, hmerge]
  dsimp only
  rw [if_neg (by simp [hfs.isZero]), hback, hnonempty, Bool.not_false, Bool.and_true,
    ← hfs.factors_eq, h.product_factors]

/-! ### Sums -/

theorem mul_assoc_number (c d k : κ) : c * d * k = c * (d * k) := by
  refine ExactNumber.value_injective ?_
  simp only [ExactNumber.value_mul]
  ring

theorem mul_comm_number (c d : κ) : c * d = d * c := by
  refine ExactNumber.value_injective ?_
  rw [ExactNumber.value_mul, ExactNumber.value_mul, mul_comm]

/-- A number in front of the factors of a term multiplies its coefficient. -/
theorem addFactors_mul (s : Collection κ) (d c : κ) (m : Monomial) (es : List (Expr κ)) :
    (Collection.addFactors s (d * c) m es).2 =
      (d * (Collection.addFactors s c m es).2.1, (Collection.addFactors s c m es).2.2) := by
  induction es generalizing s c m with
  | nil => rfl
  | cons f es ih =>
      cases hc : f.isConst with
      | true =>
          obtain ⟨k, rfl⟩ := exists_const_of_isConst hc
          rw [Collection.addFactors_const, Collection.addFactors_const, mul_assoc_number, ih]
      | false => rw [Collection.addFactors_cons hc, Collection.addFactors_cons hc, ih]

theorem monomial_scaled (c : κ) (e : Expr κ) : (scaled c e).monomial = e.monomial ∧
    (scaled c e).coefficient = c * e.coefficient := by
  unfold scaled
  split
  · rename_i hone
    rw [eq_one_of_isOne hone, one_mul_number]
    exact ⟨rfl, rfl⟩
  · have hmul : (Expr.mul (.const c) e).factors = .const c :: e.factors := rfl
    have heq : (Collection.addFactors .empty one [] (Expr.mul (.const c) e).factors).2 =
        (c * e.coefficient, e.monomial) := by
      rw [hmul, Collection.addFactors_const, mul_comm_number, addFactors_mul]
      rfl
    have hmonomial := congrArg Prod.snd heq
    have hcoefficient := congrArg Prod.fst heq
    exact ⟨hmonomial, hcoefficient⟩

/-- A stable normal form other than a sum is a single term. -/
theorem Normal.exists_terms (h : Normal e) (hstable : IsStable e) (hsum : e.isSum = false) (c : κ) :
    ∃ s, terms c e = [s] ∧ s.monomial = e.monomial ∧ s.coefficient = c * e.coefficient := by
  fun_cases terms c e with
  | case1 a b => simp [isSum] at hsum
  | case2 a b => simp [isSum] at hsum
  | case3 d =>
      refine ⟨_, rfl, rfl, ?_⟩
      change one * (d * c) = c * (one * d)
      rw [one_mul_number, one_mul_number, mul_comm_number]
  | case4 d b hb => rw [hstable.2.2 rfl] at hb; exact absurd hb Bool.false_ne_true
  | case5 d b _ => exact ⟨_, rfl, monomial_scaled c _⟩
  | case6 a d _ _ => simpa [isConst] using h.of_mul.2.2.1
  | case7 a d _ _ => exact ⟨_, rfl, monomial_scaled c _⟩
  | case8 a b _ _ => exact ⟨_, rfl, monomial_scaled c _⟩
  | case9 e _ _ _ _ => exact ⟨_, rfl, monomial_scaled c _⟩

namespace NormalSum

omit [ExactNumber κ] in
/-- No term is a bare sum. -/
theorem isSum_term (h : NormalSum l) (ht : t ∈ l) (c : κ) : (writtenTerm t.1 c).isSum = false := by
  rw [Bool.eq_false_iff]
  intro hsum
  obtain ⟨key, hm, hterm⟩ := exists_of_isSum_writtenTerm hsum
  rw [hterm, h.lone t ht key hm] at hsum
  exact Bool.false_ne_true hsum

/-- A stable term is read with its monomial and its number. -/
theorem exists_term (h : NormalSum l) (hle : ∀ t ∈ l, ∀ p ∈ t.1, p.2 ≤ maxExponent) (ht : t ∈ l)
    {k : κ} (hk : isZero k = false) (hstable : IsStable (writtenTerm t.1 k)) (c : κ) :
    ∃ s, terms c (writtenTerm t.1 k) = [s] ∧ s.monomial = t.1 ∧ s.coefficient = c * k := by
  have hproper := h.arranged.proper t ht
  have hread := h.arranged.readable t ht
  obtain ⟨s, hs, hmonomial, hcoefficient⟩ :=
    (h.normal_term ht hk).exists_terms hstable (h.isSum_term ht k) c
  rw [monomial_writtenTerm hread (hle t ht) hproper] at hmonomial
  rw [coefficient_writtenTerm hread (hle t ht) hproper] at hcoefficient
  exact ⟨s, hs, hmonomial, hcoefficient⟩

/-- The terms of a written sum are those that were written. -/
theorem exists_terms (h : NormalSum l) (hle : ∀ t ∈ l, ∀ p ∈ t.1, p.2 ≤ maxExponent) (hne : l ≠ [])
    (hstable : IsStable (writtenSum l)) :
    (terms one (writtenSum l)).map (fun s => (s.monomial, s.coefficient)) = l := by
  induction l using List.reverseRecOn with
  | nil => exact absurd rfl hne
  | append_singleton l t ih =>
      have ht : t ∈ l ++ [t] := by simp
      have hzero := h.arranged.nonzero t ht
      by_cases hl : l = []
      · subst hl
        obtain ⟨s, hs, hmonomial, hcoefficient⟩ := h.exists_term hle ht hzero hstable one
        rw [List.nil_append, writtenSum_singleton, hs]
        simp [hmonomial, hcoefficient, one_mul_number]
      · rw [writtenSum_concat hl] at hstable ⊢
        have hsub := h.sublist (List.sublist_append_left l [t])
        have hle' : ∀ u ∈ l, ∀ p ∈ u.1, p.2 ≤ maxExponent :=
          fun u hu => hle u (List.mem_append_left _ hu)
        unfold appendWritten at hstable ⊢
        split
        · rename_i hneg
          rw [if_pos hneg] at hstable
          obtain ⟨s, hs, hmonomial, hcoefficient⟩ :=
            h.exists_term hle ht (k := -t.2) (by rw [isZero_neg, hzero]) hstable.2 (-one)
          have hback : (-one * -t.2 : κ) = t.2 := by
            refine ExactNumber.value_injective ?_
            rw [ExactNumber.value_mul, ExactNumber.value_neg, ExactNumber.value_neg, one,
              ExactNumber.value_ofInt, Int.cast_one, neg_mul_neg, one_mul]
          rw [terms, List.map_append, ih hsub hle' hl hstable.1, hs]
          simp [hmonomial, hcoefficient, hback]
        · rename_i hneg
          rw [if_neg hneg] at hstable
          obtain ⟨s, hs, hmonomial, hcoefficient⟩ := h.exists_term hle ht hzero hstable.2 one
          rw [terms, List.map_append, ih hsub hle' hl hstable.1, hs]
          simp [hmonomial, hcoefficient, one_mul_number]

/-- **Collecting the terms of a sum gives it back.** -/
theorem collected?_eq (h : NormalSum l) (hle : ∀ t ∈ l, ∀ p ∈ t.1, p.2 ≤ maxExponent)
    (hlength : 2 ≤ l.length) (hnamed : Named (writtenSum l)) (hstable : IsStable (writtenSum l)) :
    (writtenSum l).collected? = some (writtenSum l) := by
  have hne : l ≠ [] := by
    rintro rfl
    simp at hlength
  have hterms := h.exists_terms hle hne hstable
  have hsums : (Collection.ofTerms (terms one (writtenSum l))).sums = l := by
    rw [Collection.sums_ofTerms, hterms]
    have := h.arranged.distinct
    rw [← hterms, List.map_map] at this
    exact this
  have hover := (normalTerms_terms h.normal_writtenSum hnamed one).settled.over_named
  have hordered : (Collection.ofTerms (terms one (writtenSum l))).ordered = l := by
    rw [Collection.ordered_of_pairwise, hsums]
    · rw [hsums]
      exact h.arranged.nonzero
    · rw [hsums]
      exact h.arranged.descending
  have hcount : (terms one (writtenSum l)).length = l.length := by
    rw [← List.length_map (fun s : Expr κ => (s.monomial, s.coefficient)), hterms]
  unfold collected?
  dsimp only
  rw [if_neg (by omega), Collection.toExpr_eq_writtenSum hover, hordered]

end NormalSum

/-- Collecting a stable sum in normal form gives it back. -/
theorem Normal.collected?_eq (h : Normal u) (hnamed : Named u) (hstable : IsStable u)
    (hsum : u.isSum = true) : u.collected? = some u := by
  obtain ⟨l, rfl, hlength, hl⟩ := h.of_isSum hsum
  cases l with
  | nil => simp at hlength
  | cons t l =>
      exact hl.collected?_eq (exponents_le_of_writtenSum hl.arranged hstable.summands_power_le)
        hlength hnamed hstable

omit [ExactNumber κ] in
/-- The last summand of a sum in normal form is no sum. -/
theorem Normal.isSum_right (h : Normal (.sub a b)) : b.isSum = false := by
  obtain ⟨l, heq, hlength, hl⟩ := h.of_isSum rfl
  cases l using List.reverseRecOn with
  | nil => simp at hlength
  | append_singleton l t =>
      have hne : l ≠ [] := by
        rintro rfl
        simp at hlength
      rw [writtenSum_concat hne] at heq
      unfold appendWritten at heq
      split at heq
      · obtain ⟨rfl, rfl⟩ := Expr.sub.inj heq
        exact hl.isSum_term (by simp) _
      · simp at heq

/-! ### One operation -/

omit [ExactNumber κ] in
/-- The operands of a collected sum: the first is no number, and the second is not zero. -/
theorem Collected.operands (h : Collected (a.summands ++ [b])) :
    a.isConst = false ∧ isZero b.coefficient = false := by
  refine ⟨?_, h.nonzero b (by simp)⟩
  cases hc : a.isConst with
  | false => rfl
  | true =>
      obtain ⟨c, rfl⟩ := exists_const_of_isConst hc
      rw [← hc]
      exact h.constant _ (by simp [Expr.summands])

theorem isZeroConst_of_coefficient (h : isZero b.coefficient = false) : b.isZeroConst = false := by
  cases b with
  | const c =>
      have hc : (Expr.const c).coefficient = one * c := rfl
      rwa [hc, one_mul_number] at h
  | _ => rfl

omit [ExactNumber κ] in
theorem simplifyAdd_of_isConst (h : a.isConst = false) : simplifyAdd a b =
    if a.isZeroConst then b
    else if b.isZeroConst then a
    else (Expr.add a b).collected?.getD (.add a b) := by
  cases a with
  | const c => simp [isConst] at h
  | _ => rfl

theorem Normal.simplifyAdd_eq (h : Normal (.add a b)) (hnamed : Named (.add a b))
    (hstable : IsStable (.add a b)) : simplifyAdd a b = .add a b := by
  obtain ⟨hconst, hcoefficient⟩ := (h.collected rfl hstable.summands_power_le).operands
  rw [simplifyAdd_of_isConst hconst, isZeroConst_of_isConst hconst,
    isZeroConst_of_coefficient hcoefficient, h.collected?_eq hnamed hstable rfl]
  simp

theorem Normal.simplifySub_eq (h : Normal (.sub a b)) (hnamed : Named (.sub a b))
    (hstable : IsStable (.sub a b)) : simplifySub again a b = .sub a b := by
  have hsummands := h.collected rfl hstable.summands_power_le
  obtain ⟨hconst, hcoefficient⟩ := hsummands.operands
  have hsame : a.same b = false := by
    rw [Bool.eq_false_iff]
    intro hsame
    obtain rfl := same_iff_eq.1 hsame
    have hdistinct := hsummands.distinct
    rw [summands, summands_of_isSum h.isSum_right] at hdistinct
    simp at hdistinct
  rw [simplifySub_of_isConst hconst, isZeroConst_of_coefficient hcoefficient, hsame,
    isZeroConst_of_isConst hconst, h.collected?_eq hnamed hstable rfl]
  simp

theorem Normal.simplifyMul_eq (h : Normal (.mul a b)) (hstable : IsStable (.mul a b)) :
    simplifyMul again a b = .mul a b := by
  obtain ⟨-, -, hconst, -, hzero, hone, -⟩ := h.of_mul
  have hzero' := isZeroConst_of_isConst hconst
  have hone' := isOneConst_of_isConst hconst
  have hboth : (a.isConst && b.isSum) = false := by
    cases hc : a.isConst with
    | true => exact hstable.2.2 hc
    | false => rfl
  have hproduct : simplifyProduct again (.mul a b) = .mul a b := h.simplifyProduct_eq rfl
  cases b with
  | const d => simp [isConst] at hconst
  | _ => simp [simplifyMul, hzero, hzero', hone, hone', hboth, hproduct]

theorem Normal.simplifyPow_eq (h : Normal (.pow a b)) : simplifyPow again a b = .pow a b := by
  obtain ⟨-, hconst, hbase, n, hn, rfl⟩ := h.of_pow
  have hzero : (ofInt n : Expr κ).isZeroConst = false := isZeroConst_ofInt (by omega)
  have hone : (ofInt n : Expr κ).isOneConst = false := by
    rw [Bool.eq_false_iff, Ne, isOneConst_ofInt]
    omega
  have hone' := isOneConst_of_isConst hconst
  cases a with
  | const c => simp [isConst] at hconst
  | pow x y =>
      -- a power is not its own base
      have hx : x.size = (Expr.pow x y).size := congrArg (fun p => p.1.size) hbase
      simp only [size] at hx
      omega
  | _ => simp [simplifyPow, hzero, hone, hone']

/-! ### Whole expressions -/

omit [ExactNumber κ] in
theorem Normal.of_div (h : Normal (.div a b)) : Normal a ∧ ∃ d, b = .const d ∧
    ∀ again, simplifyDiv again a (.const d) = .div a (.const d) := by
  generalize he : Expr.div a b = e at h
  cases h with
  | div ha hkept =>
      obtain ⟨rfl, rfl⟩ := Expr.div.inj he
      exact ⟨ha, _, rfl, hkept⟩
  | sum _ hlength _ _ _ =>
      have := isSum_writtenSum hlength
      rw [← he] at this
      simp [isSum] at this
  | _ => simp at he

omit [ExactNumber κ] in
theorem Normal.of_apply {g : Elementary} (h : Normal (.apply g a)) :
    Normal a ∧ simplifyApply g a = .apply g a := by
  generalize he : Expr.apply g a = e at h
  cases h with
  | apply ha hkept =>
      obtain ⟨rfl, rfl⟩ := Expr.apply.inj he
      exact ⟨ha, hkept⟩
  | sum _ hlength _ _ _ =>
      have := isSum_writtenSum hlength
      rw [← he] at this
      simp [isSum] at this
  | _ => simp at he

/-- **A stable normal form is left alone.** -/
theorem Normal.simplifyWith_eq (h : Normal u) (hnamed : Named u) (hstable : IsStable u)
    (again : Expr κ → Expr κ) : u.simplifyWith again = u := by
  induction u with
  | var x => rfl
  | const c => rfl
  | add a b iha ihb =>
      obtain ⟨ha, hb⟩ := hereditary_normal.add h
      obtain ⟨hna, hnb⟩ := onlyNames_add.1 hnamed
      rw [simplifyWith, iha ha hna hstable.1, ihb hb hnb hstable.2, h.simplifyAdd_eq hnamed hstable]
  | sub a b iha ihb =>
      obtain ⟨ha, hb⟩ := hereditary_normal.sub h
      obtain ⟨hna, hnb⟩ := onlyNames_sub.1 hnamed
      rw [simplifyWith, iha ha hna hstable.1, ihb hb hnb hstable.2, h.simplifySub_eq hnamed hstable]
  | mul a b iha ihb =>
      obtain ⟨ha, hb⟩ := hereditary_normal.mul h
      obtain ⟨hna, hnb⟩ := onlyNames_mul.1 hnamed
      rw [simplifyWith, iha ha hna hstable.1, ihb hb hnb hstable.2.1, h.simplifyMul_eq hstable]
  | div a b iha _ =>
      obtain ⟨ha, d, rfl, hkept⟩ := h.of_div
      rw [simplifyWith, iha ha (onlyNames_div.1 hnamed).1 hstable.1]
      exact hkept again
  | pow a b iha ihb =>
      obtain ⟨ha, hb⟩ := hereditary_normal.pow h
      obtain ⟨hna, hnb⟩ := onlyNames_pow.1 hnamed
      rw [simplifyWith, iha ha hna hstable.1, ihb hb hnb hstable.2.1, h.simplifyPow_eq]
  | apply g a ih =>
      obtain ⟨ha, hkept⟩ := h.of_apply
      rw [simplifyWith, ih ha (onlyNames_apply.1 hnamed) hstable, hkept]

/-- **Simplification is idempotent** among expressions with natural powers, if it leaves no number
before a sum and no exponent above the bound. -/
theorem simplify_simplify (hnamed : Named e) (hpowers : NaturalPowers e)
    (hstable : IsStable e.simplify) : e.simplify.simplify = e.simplify := by
  have hsimplified := (simplified_simplify hnamed).named
  have hnormal := normal_simplify hnamed hpowers
  generalize e.simplify = u at hstable hsimplified hnormal ⊢
  rw [simplify]
  cases u.weight with
  | zero => exact hnormal.simplifyWith_eq hsimplified hstable id
  | succ n => exact hnormal.simplifyWith_eq hsimplified hstable (simplifyWithin n)

end Exact

/-- The simplification `x^2 + 3 * y + 6` of a sum is simplified to itself. -/
theorem simplify_simplify_shuffledSum : Named shuffledSum ∧ NaturalPowers shuffledSum ∧
    IsStable shuffledSum.simplify ∧
      shuffledSum.simplify.simplify = shuffledSum.simplify := by
  obtain ⟨hnamed, hpowers⟩ := shuffledSum_wellFormed
  have hstable : IsStable shuffledSum.simplify := by
    rw [shuffledSum_simplified]
    exact ⟨⟨⟨trivial, trivial, by decide +kernel⟩, trivial, trivial, fun _ => rfl⟩, trivial⟩
  exact ⟨hnamed, hpowers, hstable, simplify_simplify hnamed hpowers hstable⟩

/-- `(x + 1) * 2`. -/
def sumTimesNumber : Expr Ratio := .mul (.add (.var "x") (ofInt 1)) (ofInt 2)

/-- It is simplified to `2 * (x + 1)`, and that to `2 * x + 2`. -/
theorem not_idempotent_sumTimesNumber : Named sumTimesNumber ∧
    sumTimesNumber.simplify.simplify ≠ sumTimesNumber.simplify := by
  have hsimplify : sumTimesNumber.simplify =
      .mul (ofInt 2) (.add (.var "x") (ofInt 1)) := same_iff_eq.1 (by cbv)
  have hagain : (Expr.mul (ofInt 2) (.add (.var "x") (ofInt 1)) : Expr Ratio).simplify =
      .add (.mul (ofInt 2) (.var "x")) (ofInt 2) := same_iff_eq.1 (by cbv)
  have hnamed : Named sumTimesNumber := by
    have hx : IsName "x" := by decide
    simp [sumTimesNumber, Named, hx]
  rw [hsimplify, hagain]
  exact ⟨hnamed, by simp⟩

end Expr

end Reckoner
