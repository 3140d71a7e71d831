/-
**Simplified sums are collected and ordered.**

The summands of a sum stand along its left operands.  In a collected sum they have different
monomials and numbers other than zero, their degrees descend, and a number can only come last.

A simplified sum always is a list of terms with these properties, but its first term may be a sum
itself.  This happens when collecting meets a bare sum as the only factor of a term, and takes it
for an atom: its own summands then stand among the others, and the whole sum is collected piece by
piece.  Among expressions with natural powers there is no such term, and simplified sums are
collected as they stand.

The exponents have to stay below `Reckoner.Expr.maxExponent`.  A larger one is cut down when the
sum is read again, so that powers of different exponents may have one monomial.

Main definitions:

* `Reckoner.Expr.summands` — the summands of a sum;
* `Reckoner.Expr.Collected` — summands of a collected sum;
* `Reckoner.Expr.SumOf` — a sum of some terms, the first of which may be a sum;
* `Reckoner.Expr.Gathered` — sums that are collected piece by piece.

Main results:

* `Reckoner.Expr.collected_writtenSum` — arranged terms are collected as they are written;
* `Reckoner.Expr.simplify_collected` — **simplified sums are collected**, all at once among
  expressions with natural powers, and piece by piece in general.
-/

import Reckoner.Proofs.Normalization
import Reckoner.Proofs.Ratio

set_option autoImplicit false

namespace Reckoner

open Arithmetic (isZero isOne isNegative integer? one)

/-! ### Degrees -/

namespace Monomial

variable {m : Monomial} {ms : List Monomial}

theorem degree_cons (p : String × ℤ) (m : Monomial) : degree (p :: m) = p.2 + m.degree := rfl

theorem degree_nonneg (hm : ∀ p ∈ m, 0 < p.2) : 0 ≤ m.degree := by
  induction m with
  | nil => exact le_rfl
  | cons p m ih =>
      obtain ⟨hp, hm⟩ := List.forall_mem_cons.1 hm
      have := ih hm
      rw [degree_cons]
      omega

theorem eq_nil_of_degree (hm : ∀ p ∈ m, 0 < p.2) (h : m.degree ≤ 0) : m = [] := by
  cases m with
  | nil => rfl
  | cons p m =>
      obtain ⟨hp, hm⟩ := List.forall_mem_cons.1 hm
      have := degree_nonneg hm
      rw [degree_cons] at h
      omega

/-- Where degrees descend, only the last monomial can be without atoms. -/
theorem ne_nil_of_mem_dropLast (hms : ∀ m ∈ ms, ∀ p ∈ m, 0 < p.2) (hnodup : ms.Nodup)
    (hdescending : ms.Pairwise fun m m' => m'.degree ≤ m.degree) (hm : m ∈ ms.dropLast) :
    m ≠ [] := by
  cases ms using List.reverseRecOn with
  | nil => simp at hm
  | append_singleton ms k =>
      rw [List.dropLast_concat] at hm
      rintro rfl
      have hle := (List.pairwise_append.1 hdescending).2.2 _ hm k (List.mem_singleton_self k)
      have hk : k = [] := eq_nil_of_degree (hms k (by simp)) hle
      exact (List.nodup_append.1 hnodup).2.2 _ hm k (List.mem_singleton_self k) hk.symm

end Monomial

namespace Expr

variable {κ : Type} [Number κ]

/-! ### Summands -/

/-- The summands of a sum, from left to right; anything else is a single summand. -/
def summands : Expr κ → List (Expr κ)
  | .add a b | .sub a b => a.summands ++ [b]
  | e => [e]

/-- The summands of a collected sum. -/
structure Collected (ts : List (Expr κ)) : Prop where
  /-- The monomials are different. -/
  distinct : (ts.map monomial).Nodup
  /-- No coefficient is zero. -/
  nonzero : ∀ t ∈ ts, isZero t.coefficient = false
  /-- The degrees descend. -/
  descending : (ts.map monomial).Pairwise fun m m' => m'.degree ≤ m.degree
  /-- A number can only be the last. -/
  constant : ∀ t ∈ ts.dropLast, t.isConst = false

/-- A sum of some terms, one after the other.  The first of them may be a sum itself. -/
inductive SumOf : Expr κ → List (Expr κ) → Prop
  | single (e : Expr κ) : SumOf e [e]
  | add {a b : Expr κ} {ts : List (Expr κ)} : SumOf a ts → SumOf (.add a b) (ts ++ [b])
  | sub {a b : Expr κ} {ts : List (Expr κ)} : SumOf a ts → SumOf (.sub a b) (ts ++ [b])

/-- A sum that is collected, except that its first term may be a sum in its turn. -/
inductive Gathered : Expr κ → Prop
  | intro {e first : Expr κ} {rest : List (Expr κ)} : SumOf e (first :: rest) → rest ≠ [] →
      Collected (first :: rest) → (first.isSum = true → Gathered first) → Gathered e

variable {a b e u first : Expr κ} {rest es : List (Expr κ)} {c : κ} {m : Monomial}
variable {l : List (Monomial × κ)} {t : Monomial × κ}

omit [Number κ] in
theorem summands_of_isSum (h : e.isSum = false) : e.summands = [e] := by
  cases e with
  | add a b => simp [isSum] at h
  | sub a b => simp [isSum] at h
  | _ => rfl

omit [Number κ] in
/-- The summands of a sum are those of its first term and the other terms. -/
theorem SumOf.summands_eq (h : SumOf e es) :
    ∃ first rest, es = first :: rest ∧ e.summands = first.summands ++ rest := by
  induction h with
  | single e => exact ⟨e, [], rfl, (List.append_nil _).symm⟩
  | @add a b _ _ ih =>
      obtain ⟨first, rest, rfl, hsummands⟩ := ih
      exact ⟨first, rest ++ [b], rfl, by rw [summands, hsummands, List.append_assoc]⟩
  | @sub a b _ _ ih =>
      obtain ⟨first, rest, rfl, hsummands⟩ := ih
      exact ⟨first, rest ++ [b], rfl, by rw [summands, hsummands, List.append_assoc]⟩

/-! ### Written sums -/

/-- A term behind another one.  A negative number is subtracted without its sign. -/
noncomputable def writtenSummand (t : Monomial × κ) : Expr κ :=
  writtenTerm t.1 (if isNegative t.2 then -t.2 else t.2)

theorem appendWritten_eq (e : Expr κ) (t : Monomial × κ) : appendWritten e t =
    if isNegative t.2 then .sub e (writtenSummand t) else .add e (writtenSummand t) := by
  unfold appendWritten writtenSummand
  split <;> rfl

theorem sumOf_writtenSum (t : Monomial × κ) (l : List (Monomial × κ)) :
    SumOf (writtenSum (t :: l)) (writtenTerm t.1 t.2 :: l.map writtenSummand) := by
  induction l using List.reverseRecOn with
  | nil => exact .single _
  | append_singleton l u ih =>
      rw [← List.cons_append, writtenSum_concat (List.cons_ne_nil _ _), List.map_append,
        ← List.cons_append, appendWritten_eq]
      split
      · exact ih.sub
      · exact ih.add

/-- A term is a bare sum only as the first power of a single atom. -/
theorem exists_of_isSum_writtenTerm (h : (writtenTerm m c).isSum = true) :
    ∃ key, m = [(key, 1)] ∧ writtenTerm m c = ofText κ key := by
  have product (es : List (Expr κ)) (e : Expr κ) (h : (es.foldl .mul e).isSum = true) :
      es = [] := by
    cases es using List.reverseRecOn with
    | nil => rfl
    | append_singleton es f => simp [isSum] at h
  unfold writtenTerm at h ⊢
  split at h
  · simp [isSum] at h
  · rename_i hempty
    rw [if_neg hempty]
    cases m with
    | nil => simp at hempty
    | cons p m =>
        split at h
        · rename_i hone
          obtain rfl : m = [] := by simpa using product _ _ h
          have hp : p.2 = 1 := by
            by_contra hp
            simp [Collection.product, writtenPower, hp, isSum] at h
          refine ⟨p.1, by rw [← hp], ?_⟩
          simp [hone, Collection.product, writtenPower, hp]
        · simpa using product _ _ h

section Exact

variable [ExactNumber κ]

theorem Readable.power_writtenPower {p : String × ℤ} (h : Readable κ p) (hpos : 0 < p.2) :
    (writtenPower p : Expr κ).power.2 = p.2 := by
  unfold writtenPower
  split
  · rename_i hone
    have hatom := h.atomPower hone
    rw [atomPower_eq, Prod.mk.injEq] at hatom
    have hmax : 1 < maxExponent := by decide
    omega
  · simp [power, ofInt, integer?_ofInt, hpos, h.isConst]

theorem coefficient_writtenSummand (hm : ∀ p ∈ t.1, Readable κ p)
    (hle : ∀ p ∈ t.1, p.2 ≤ maxExponent) (hp : t.1.Proper) (hc : isZero t.2 = false) :
    isZero (writtenSummand t).coefficient = false := by
  unfold writtenSummand
  rw [coefficient_writtenTerm hm hle hp]
  split
  · rw [isZero_neg, hc]
  · exact hc

/-- **Arranged terms are collected as they are written**, if their exponents stay below the
bound. -/
theorem collected_writtenSum (h : Arranged (t :: l))
    (hle : ∀ u ∈ t :: l, ∀ p ∈ u.1, p.2 ≤ maxExponent) :
    Collected (writtenTerm t.1 t.2 :: l.map writtenSummand) := by
  have hmonomials : (writtenTerm t.1 t.2 :: l.map writtenSummand).map monomial =
      (t :: l).map Prod.fst := by
    have ht := List.mem_cons_self (a := t) (l := l)
    rw [List.map_cons, List.map_cons, List.map_map,
      monomial_writtenTerm (h.readable t ht) (hle t ht) (h.proper t ht)]
    congr 1
    refine List.map_congr_left fun u hu => ?_
    have hu := List.mem_cons_of_mem t hu
    exact monomial_writtenTerm (h.readable u hu) (hle u hu) (h.proper u hu) _
  have hdescending : ((t :: l).map Prod.fst).Pairwise fun m m' => m'.degree ≤ m.degree :=
    List.pairwise_map.2 h.descending
  refine ⟨hmonomials ▸ h.distinct, ?_, hmonomials ▸ hdescending, fun u hu => ?_⟩
  · intro u hu
    rcases List.mem_cons.1 hu with rfl | hu
    · have ht := List.mem_cons_self (a := t) (l := l)
      rw [coefficient_writtenTerm (h.readable t ht) (hle t ht) (h.proper t ht)]
      exact h.nonzero t ht
    · obtain ⟨v, hv, rfl⟩ := List.mem_map.1 hu
      have hv := List.mem_cons_of_mem t hv
      exact coefficient_writtenSummand (h.readable v hv) (hle v hv) (h.proper v hv)
        (h.nonzero v hv)
  · -- a number would have the monomial without atoms
    have hmem : u.monomial ∈ ((t :: l).map Prod.fst).dropLast := by
      rw [← hmonomials, ← List.map_dropLast]
      exact List.mem_map_of_mem hu
    have hne := Monomial.ne_nil_of_mem_dropLast
      (List.forall_mem_map.2 fun v hv => (h.proper v hv).positive) h.distinct hdescending hmem
    cases u with
    | const d => exact absurd rfl hne
    | _ => rfl

/-- The exponents of a written sum are those of its summands. -/
theorem exponents_le_of_writtenSum (h : Arranged (t :: l))
    (hle : ∀ s ∈ (writtenSum (t :: l)).summands, ∀ f ∈ s.factors, f.power.2 ≤ maxExponent) :
    ∀ u ∈ t :: l, ∀ p ∈ u.1, p.2 ≤ maxExponent := by
  -- the exponents of a term that is a summand
  have term {u : Monomial × κ} {c : κ} (hu : u ∈ t :: l)
      (hs : writtenTerm u.1 c ∈ (writtenSum (t :: l)).summands) : ∀ p ∈ u.1, p.2 ≤ maxExponent := by
    intro p hp
    have hread := h.readable u hu p hp
    rw [← hread.power_writtenPower ((h.proper u hu).positive p hp)]
    refine hle _ hs _ ?_
    rw [factors_writtenTerm (h.readable u hu) (List.ne_nil_of_mem hp)]
    exact List.mem_append_right _ (List.mem_map_of_mem hp)
  obtain ⟨first, rest, heq, hsummands⟩ := (sumOf_writtenSum t l).summands_eq
  obtain ⟨rfl, rfl⟩ := List.cons.inj heq
  refine List.forall_mem_cons.2 ⟨?_, fun u hu => ?_⟩
  · cases hsum : (writtenTerm t.1 t.2).isSum with
    | false =>
        refine term (c := t.2) List.mem_cons_self ?_
        rw [hsummands, summands_of_isSum hsum]
        exact List.mem_append_left _ (List.mem_singleton_self _)
    | true =>
        obtain ⟨key, hm, -⟩ := exists_of_isSum_writtenTerm hsum
        rw [hm]
        simp [maxExponent]
  · refine term (c := if isNegative u.2 then -u.2 else u.2) (List.mem_cons_of_mem _ hu) ?_
    rw [hsummands]
    exact List.mem_append_right _ (List.mem_map.2 ⟨u, hu, rfl⟩)

/-! ### Simplified sums -/

/-- A settled sum is collected piece by piece. -/
theorem Settled.gathered (h : Settled u) (hsum : u.isSum = true)
    (hle : ∀ s ∈ u.summands, ∀ f ∈ s.factors, f.power.2 ≤ maxExponent) : Gathered u := by
  induction h with
  | @sum l harranged hlength hatoms ih =>
      cases l with
      | nil => simp at hlength
      | cons t l =>
          have hne : l.map writtenSummand ≠ ([] : List (Expr κ)) := by
            rintro hnil
            simp [List.map_eq_nil_iff.1 hnil] at hlength
          refine .intro (sumOf_writtenSum t l) hne
            (collected_writtenSum harranged (exponents_le_of_writtenSum harranged hle)) fun hfirst => ?_
          obtain ⟨key, hm, hterm⟩ := exists_of_isSum_writtenTerm hfirst
          obtain ⟨first, rest, heq, hsummands⟩ := (sumOf_writtenSum t l).summands_eq
          obtain ⟨rfl, -⟩ := List.cons.inj heq
          rw [hterm] at hfirst hsummands ⊢
          refine ih t List.mem_cons_self (key, 1) (hm ▸ List.mem_singleton_self _) hfirst ?_
          intro s hs
          exact hle s (hsummands ▸ List.mem_append_left _ hs)
  | _ => simp [isSum] at hsum

/-- A sum in normal form is collected as it stands. -/
theorem Normal.collected (h : Normal u) (hsum : u.isSum = true)
    (hle : ∀ s ∈ u.summands, ∀ f ∈ s.factors, f.power.2 ≤ maxExponent) : Collected u.summands := by
  obtain ⟨l, rfl, hlength, hl⟩ := h.of_isSum hsum
  cases l with
  | nil => simp at hlength
  | cons t l =>
      have hfirst : (writtenTerm t.1 t.2).isSum = false := by
        rw [Bool.eq_false_iff]
        intro hfirst
        obtain ⟨key, hm, hterm⟩ := exists_of_isSum_writtenTerm hfirst
        rw [hterm, hl.lone t List.mem_cons_self key hm] at hfirst
        exact Bool.false_ne_true hfirst
      obtain ⟨first, rest, heq, hsummands⟩ := (sumOf_writtenSum t l).summands_eq
      obtain ⟨rfl, rfl⟩ := List.cons.inj heq
      rw [hsummands, summands_of_isSum hfirst, List.singleton_append]
      exact collected_writtenSum hl.arranged (exponents_le_of_writtenSum hl.arranged hle)

end Exact

/-- `2 * (y + 3) + x^2 + y`. -/
def shuffledSum : Expr Ratio :=
  .add (.add (.mul (ofInt 2) (.add (.var "y") (ofInt 3))) (.pow (.var "x") (ofInt 2))) (.var "y")

theorem shuffledSum_wellFormed : Named shuffledSum ∧ NaturalPowers shuffledSum := by
  have hx : IsName "x" := by decide
  have hy : IsName "y" := by decide
  exact ⟨by simp [shuffledSum, Named, hx, hy],
    ⟨⟨⟨trivial, trivial, trivial⟩, trivial, 2, rfl⟩, trivial⟩⟩

theorem shuffledSum_simplified : shuffledSum.simplify =
    .add (.add (.pow (.var "x") (ofInt 2)) (.mul (ofInt 3) (.var "y"))) (ofInt 6) :=
  same_iff_eq.1 (by cbv)

/-- `0.5 * ((x + 1) * 2)^2 * ((x + 1) * 2)^(-1) + y`. -/
def sumInPieces : Expr Ratio :=
  .add (.mul (.mul (.const ⟨1 / 2⟩) (.pow (.mul (.add (.var "x") (ofInt 1)) (ofInt 2)) (ofInt 2)))
    (.pow (.mul (.add (.var "x") (ofInt 1)) (ofInt 2)) (ofInt (-1)))) (.var "y")

end Expr

end Reckoner
