/-
**Simplification, expansion and rationalization terminate.**

The recursions of simplification and expansion end on every expression: all calls are on expressions
that are smaller in a measure that is well-founded.  That nothing else is called is part of the
statement: an operation has the same result for any function that agrees with the recursion on the
listed calls.

The definitions that are run bound the number of trees that are rebuilt within rebuilt trees, and of
powers that are multiplied out within powers.  This module also shows that these bounds are not felt
for exact numbers and identifiers as names.  For simplification that is the subject of
`Reckoner/Proofs/Recursion.lean`.  For expansion it is the reach that carries the argument.  The
terms of an expression reach no further than the expression, and not as far if there are several of
them.  The first `k` factors of a power of a sum therefore give terms that reach at most `k` times
as far as the terms of the sum.  The sum of these terms reaches one step further, which is still
less than the power does, and simplification does not change that.

Main definitions:

* `Reckoner.Expr.Splits` — terms that reach less far than the expression they come from;
* `Reckoner.Expr.unboundedExpand`, `Reckoner.Expr.unboundedRationalize` — expansion and
  rationalization without a bound;
* `Reckoner.Expr.rationalizeCalls` — what rationalization expands;
* `Reckoner.Expr.Terminates` — the calculations with an expression end.

Main results:

* `Reckoner.Expr.splits_expandedTermsWith` — the terms of an expression reach less far;
* `Reckoner.Expr.expandedTerms_eq` — expansion is the recursion of its rules;
* `Reckoner.Expr.simplify_eq_unbounded`, `Reckoner.Expr.expand_eq_unbounded`,
  `Reckoner.Expr.rationalize_eq_unbounded` — the bounds are not felt;
* `Reckoner.Expr.simplify_expand_rationalize_terminate` — **all recursive calls decrease**.
-/

import Reckoner.Proofs.Occurrence
import Reckoner.Proofs.Reach
import Reckoner.Proofs.RankedTerms

set_option autoImplicit false

namespace Reckoner.Expr

open Arithmetic (integer? isOne isZero one)

variable {κ : Type} [Number κ]
variable {a b e f : Expr κ} {es fs : List (Expr κ)} {k m n r : ℕ}
variable {again again' split split' : Expr κ → List (Expr κ)}

/-! ### One operation -/

/-- The terms of a power of a sum, in which sums are simplified. -/
theorem powerTermsWith_simplify (again : Expr κ → List (Expr κ)) (es : List (Expr κ)) (n : ℕ) :
    powerTermsWith simplify again es n = powerTerms again es n := by
  induction n with
  | zero => rfl
  | succ n ih => rw [powerTermsWith, powerTerms, ih, collect]

/-- The terms of an expression are those of one operation after the other. -/
theorem expandedTermsWith_eq_root (again : Expr κ → List (Expr κ)) (e : Expr κ) :
    e.expandedTermsWith again = e.expandedRoot simplify again (expandedTermsWith again) := by
  cases e with
  | pow a b =>
      cases hb : b.expandedExponent? <;>
        simp only [expandedTermsWith, expandedRoot, hb, powerTermsWith_simplify, collect]
  | _ => rfl

/-! ### Terms that reach less far -/

/-- The terms of an expression: a sum has several, they reach no further than the expression, and
not as far if there are several of them. -/
structure Splits (e : Expr κ) (es : List (Expr κ)) : Prop where
  /-- The names are identifiers. -/
  named : TermsOnlyNames IsName es
  /-- There is a term. -/
  one_le : 1 ≤ es.length
  /-- A sum has two terms. -/
  two_le : e.isSum = true → 2 ≤ es.length
  /-- The terms reach no further. -/
  reach_le : ∀ t ∈ es, t.reach ≤ e.reach
  /-- Several terms reach less far. -/
  reach_lt : 2 ≤ es.length → ∀ t ∈ es, t.reach < e.reach

/-- A term reaches less far than the expression does as a term of a sum. -/
theorem Splits.lt_termReach (h : Splits e es) : ∀ t ∈ es, t.reach < e.termReach := by
  intro t ht
  cases hsum : e.isSum with
  | true => exact (h.reach_lt (h.two_le hsum) t ht).trans_le (reach_le_termReach e)
  | false =>
      rw [termReach_of_not_isSum hsum]
      exact Nat.lt_succ_of_le (h.reach_le t ht)

/-- An operand reaches no further than the operation. -/
theorem reach_operand (h : a ∈ e.operands) : a.reach ≤ e.reach := by
  cases e with
  | var | const => simp [operands] at h
  | add b c | sub b c =>
      have := b.reach_le_termReach
      have := c.reach_le_termReach
      simp only [operands, List.mem_cons, List.not_mem_nil, or_false] at h
      rcases h with rfl | rfl <;> simp only [reach_add, reach_sub] <;> omega
  | pow b c =>
      have := le_reach_pow b c
      simp only [operands, List.mem_cons, List.not_mem_nil, or_false] at h
      rcases h with rfl | rfl
      · omega
      · cases hc : naturalExponent? a with
        | some n =>
            obtain ⟨c, rfl⟩ := exists_const_of_naturalExponent? hc
            exact Nat.zero_le _
        | none =>
            have := a.reach_le_termReach
            rw [reach_pow_of_none hc]
            omega
  | _ =>
      simp only [operands, List.mem_cons, List.not_mem_nil, or_false] at h
      rcases h with rfl | rfl <;> simp only [reach, maxMultiplicity] <;> omega

/-- An expression that is its own term. -/
theorem splits_singleton (hnamed : Named a) (hsum : e.isSum = false) (hle : a.reach ≤ e.reach) :
    Splits e [a] where
  named := termsOnlyNames_singleton.2 hnamed
  one_le := le_rfl
  two_le h := by simp [hsum] at h
  reach_le := List.forall_mem_singleton.2 hle
  reach_lt h := by simp at h

theorem termReach_sumOf_le (hr : 1 ≤ r) (hes : ∀ t ∈ es, t.reach < r) : (sumOf es).termReach ≤ r :=
  sumOf_induction (Q := fun e => e.termReach ≤ r) hr
    (fun t (ht : t.reach < r) => (termReach_le t).trans ht)
    (fun _ t ha ht => max_le ha ((termReach_le t).trans ht)) hes

section Exact

variable [ExactNumber κ]

theorem termReach_collect_le (hnamed : TermsOnlyNames IsName es) (hr : 1 ≤ r)
    (hes : ∀ t ∈ es, t.reach < r) : (collect es).termReach ≤ r :=
  (termReach_simplify_le hnamed.sumOf).trans (termReach_sumOf_le hr hes)

/-- The collected terms of an expression reach no further than the expression, as a term. -/
theorem Splits.termReach_collect (h : Splits e es) : (collect es).termReach ≤ e.termReach :=
  termReach_collect_le h.named (termReach_pos e) h.lt_termReach

/-- The collected terms of an expression reach no further than the expression. -/
theorem Splits.reach_collect (h : Splits e es) : (collect es).reach ≤ e.reach := by
  by_cases hlength : 2 ≤ es.length
  · obtain ⟨t, ht⟩ := List.exists_mem_of_length_pos h.one_le
    have hlt := h.reach_lt hlength
    exact (reach_le_termReach _).trans
      (termReach_collect_le h.named (Nat.one_le_of_lt (hlt t ht)) hlt)
  · -- a single term
    obtain ⟨t, rfl⟩ := List.length_eq_one_iff.1
      (le_antisymm (Nat.lt_succ_iff.1 (not_le.1 hlength)) h.one_le)
    exact (reach_simplify_le (termsOnlyNames_singleton.1 h.named)).trans
      (h.reach_le t List.mem_cons_self)

/-! ### Powers of sums -/

/-- A splitting of everything below a reach. -/
def SplitsBelow (again : Expr κ → List (Expr κ)) (n : ℕ) : Prop :=
  ∀ f, Named f → f.reach < n → Splits f (again f)

/-- **The first factors of a power of a sum** give terms that reach as far as that many terms of
the sum, and sums of terms that reach one step further. -/
theorem powerTerms_spec (hagain : SplitsBelow again n) (hnamed : TermsOnlyNames IsName es)
    (hes : ∀ t ∈ es, t.reach ≤ m) (hn : k * m + 1 < n) :
    (TermsOnlyNames IsName (powerTermsWith simplify again es k) ∧
      1 ≤ (powerTermsWith simplify again es k).length ∧
      ∀ t ∈ powerTermsWith simplify again es k, t.reach ≤ k * m) ∧
    ∀ s ∈ powerSums simplify again es k, Named s ∧ s.simplify.reach ≤ k * m + 1 := by
  induction k with
  | zero =>
      exact ⟨⟨termsOnlyNames_singleton.2 (onlyNames_const _), le_rfl,
        by simp [powerTermsWith, reach]⟩, by simp [powerSums]⟩
  | succ k ih =>
      have hk : (k + 1) * m = k * m + m := Nat.succ_mul k m
      obtain ⟨⟨hterms, -, hle⟩, hsums⟩ := ih (by omega)
      have hcross : TermsOnlyNames IsName (crossProduct (powerTermsWith simplify again es k) es) :=
        hterms.crossProduct hnamed
      have hreach : ∀ t ∈ crossProduct (powerTermsWith simplify again es k) es,
          t.reach < (k + 1) * m + 1 := by
        refine forall_mem_crossProduct fun s hs t ht => ?_
        have := hle s hs
        have := hes t ht
        rw [reach]
        omega
      have hcollect := termReach_collect_le hcross (Nat.le_add_left 1 _) hreach
      have hsum := (reach_le_termReach _).trans hcollect
      have hsplits := hagain _ hcross.collect (hsum.trans_lt hn)
      refine ⟨⟨hsplits.named, hsplits.one_le, fun t ht => ?_⟩,
        List.forall_mem_append.2 ⟨fun s hs => ?_, List.forall_mem_singleton.2 ⟨hcross.sumOf, hsum⟩⟩⟩
      · exact Nat.lt_succ_iff.1 ((hsplits.lt_termReach t ht).trans_le hcollect)
      · obtain ⟨hs, hle⟩ := hsums s hs
        exact ⟨hs, by omega⟩

omit [ExactNumber κ] in
/-- An exponent that is multiplied out. -/
theorem expandedExponent?_spec (h : b.expandedExponent? = some n) :
    b.naturalExponent? = some n ∧ n ≤ 16 := by
  cases b with
  | const c =>
      simp only [expandedExponent?] at h
      split at h
      · rename_i i hi
        split at h
        · rename_i hrange
          simp only [Bool.and_eq_true, decide_eq_true_eq] at hrange
          obtain rfl := Option.some.inj h
          have hmax : maxExpandedPower = 16 := rfl
          refine ⟨by simp [naturalExponent?, hi, hrange.1], by omega⟩
        · simp at h
      · simp at h
  | _ => simp [expandedExponent?] at h

omit [ExactNumber κ] in
/-- A power of a sum reaches further than the sums of terms that are collected in it. -/
theorem mul_add_one_lt_reach_pow (hb : b.naturalExponent? = some k) (hk : k ≤ 16)
    (hm : m < a.reach) : k * m + 1 < (Expr.pow a b).reach := by
  rw [reach_pow_of_natural hb]
  have hbase : multiplicity k * (m + 1) ≤ multiplicity k * a.reach := Nat.mul_le_mul_left _ hm
  rcases le_or_gt 2 k with htwo | hsmall
  · have hmultiplicity : multiplicity k = k := by rw [multiplicity_eq]; omega
    rw [hmultiplicity, Nat.mul_succ] at hbase
    rw [hmultiplicity]
    omega
  · have hmultiplicity : multiplicity k = 2 := by rw [multiplicity_eq]; omega
    have hle : k * m ≤ 1 * m := Nat.mul_le_mul_right _ (by omega)
    rw [hmultiplicity] at hbase ⊢
    omega

/-! ### The terms of an operation -/

omit [ExactNumber κ] in
/-- Several terms that reach less far. -/
theorem splits_of_lt (hnamed : TermsOnlyNames IsName es) (hlength : 2 ≤ es.length)
    (hlt : ∀ t ∈ es, t.reach < e.reach) : Splits e es where
  named := hnamed
  one_le := (Nat.le_succ 1).trans hlength
  two_le _ := hlength
  reach_le t ht := (hlt t ht).le
  reach_lt _ := hlt

namespace Splits

omit [ExactNumber κ] in
theorem add (ha : Splits a es) (hb : Splits b fs) : Splits (.add a b) (es ++ fs) := by
  have := ha.one_le
  have := hb.one_le
  refine splits_of_lt (termsOnlyNames_append.2 ⟨ha.named, hb.named⟩)
    (by rw [List.length_append]; omega) (List.forall_mem_append.2 ⟨fun t ht => ?_, fun t ht => ?_⟩)
  · exact lt_max_of_lt_left (ha.lt_termReach t ht)
  · exact lt_max_of_lt_right (hb.lt_termReach t ht)

omit [ExactNumber κ] in
theorem sub (ha : Splits a es) (hb : Splits b fs) :
    Splits (.sub a b) (es ++ fs.map .negated) := by
  have := ha.one_le
  have := hb.one_le
  refine splits_of_lt
    (termsOnlyNames_append.2 ⟨ha.named, hb.named.map fun _ => onlyNames_negated.2⟩)
    (by rw [List.length_append, List.length_map]; omega)
    (List.forall_mem_append.2 ⟨fun t ht => ?_, List.forall_mem_map.2 fun t ht => ?_⟩)
  · exact lt_max_of_lt_left (ha.lt_termReach t ht)
  · rw [reach_negated]
    exact lt_max_of_lt_right (hb.lt_termReach t ht)

omit [ExactNumber κ] in
theorem mul (ha : Splits a es) (hb : Splits b fs) : Splits (.mul a b) (crossProduct es fs) where
  named := ha.named.crossProduct hb.named
  one_le := by
    rw [length_crossProduct]
    exact Nat.mul_pos ha.one_le hb.one_le
  two_le h := by simp [isSum] at h
  reach_le := forall_mem_crossProduct fun s hs t ht =>
    Nat.add_le_add (ha.reach_le s hs) (hb.reach_le t ht)
  reach_lt hlength := by
    rw [length_crossProduct] at hlength
    refine forall_mem_crossProduct fun s hs t ht => ?_
    -- several products come from several terms on one side at least
    by_cases htwo : 2 ≤ es.length
    · exact Nat.add_lt_add_of_lt_of_le (ha.reach_lt htwo s hs) (hb.reach_le t ht)
    · have hfs : 2 ≤ fs.length := by
        have hone : es.length = 1 := le_antisymm (Nat.lt_succ_iff.1 (not_le.1 htwo)) ha.one_le
        rwa [hone, one_mul] at hlength
      exact Nat.add_lt_add_of_le_of_lt (ha.reach_le s hs) (hb.reach_lt hfs t ht)

theorem div (ha : Splits a es) (hb : Splits b fs) :
    Splits (.div a b) (es.map fun e => .div e (collect fs)) := by
  have hden := hb.reach_collect
  refine ⟨ha.named.map fun _ he => onlyNames_div.2 ⟨he, hb.named.collect⟩, ?_, by simp [isSum],
    List.forall_mem_map.2 fun t ht => ?_, fun hlength => List.forall_mem_map.2 fun t ht => ?_⟩
  · rw [List.length_map]
    exact ha.one_le
  · have := ha.reach_le t ht
    rw [reach_div, reach_div]
    omega
  · rw [List.length_map] at hlength
    have := ha.reach_lt hlength t ht
    rw [reach_div, reach_div]
    omega

theorem apply (g : Elementary) (ha : Splits a es) :
    Splits (.apply g a) [.apply g (collect es)] :=
  splits_singleton (onlyNames_apply.2 ha.named.collect) rfl (Nat.succ_le_succ ha.reach_collect)

/-- A power of a base that is no sum of terms. -/
theorem pow_natural (ha : Splits a es) (hnamed : Named b) (hb : b.naturalExponent? = some k) :
    Splits (.pow a b) [.pow (collect es) b] := by
  refine splits_singleton (onlyNames_pow.2 ⟨ha.named.collect, hnamed⟩) rfl ?_
  rw [reach_pow_of_natural hb, reach_pow_of_natural hb]
  exact Nat.mul_le_mul_left _ ha.reach_collect

/-- A power that is not multiplied out. -/
theorem pow (ha : Splits a es) (hb : Splits b fs) (hnone : b.naturalExponent? = none) :
    Splits (.pow a b) [.pow (collect es) (collect fs)] := by
  refine splits_singleton (onlyNames_pow.2 ⟨ha.named.collect, hb.named.collect⟩) rfl ?_
  have hpow := reach_pow_le (collect es) (collect fs)
  have := ha.reach_collect
  have := hb.termReach_collect
  rw [reach_pow_of_none hnone]
  omega

end Splits

/-- A power of a sum that is multiplied out. -/
theorem splits_powerTerms (hagain : SplitsBelow again n) (ha : Splits a es)
    (hlength : 2 ≤ es.length) (hb : b.expandedExponent? = some k)
    (hn : (Expr.pow a b).reach ≤ n) :
    Splits (.pow a b) (powerTermsWith simplify again es k) ∧
      ∀ s ∈ powerSums simplify again es k, Named s ∧ s.simplify.reach < (Expr.pow a b).reach := by
  obtain ⟨hnatural, hk⟩ := expandedExponent?_spec hb
  have hlt := ha.reach_lt hlength
  obtain ⟨t, ht⟩ := List.exists_mem_of_length_pos ha.one_le
  have hpos := hlt t ht
  have hreach : k * (a.reach - 1) + 1 < (Expr.pow a b).reach :=
    mul_add_one_lt_reach_pow hnatural hk (by omega)
  obtain ⟨⟨hnamed, hone, hle⟩, hsums⟩ := powerTerms_spec hagain ha.named
    (fun t ht => Nat.le_sub_one_of_lt (hlt t ht)) (hreach.trans_le hn)
  refine ⟨⟨hnamed, hone, by simp [isSum], fun t ht => ?_, fun _ t ht => ?_⟩, fun s hs => ?_⟩
  · have := hle t ht
    omega
  · have := hle t ht
    omega
  · obtain ⟨hs, hle⟩ := hsums s hs
    exact ⟨hs, by omega⟩

/-- **The terms of an operation reach less far**, if those of its operands do, and so do the sums
that are collected in a power. -/
theorem splits_root (hagain : SplitsBelow again n) (hconst : ∀ c, split (.const c) = [.const c])
    (hsplit : ∀ a ∈ e.operands, Splits a (split a)) (hnamed : Named e) (hn : e.reach ≤ n) :
    Splits e (e.expandedRoot simplify again split) ∧
      ∀ s ∈ e.rebuiltSums simplify again split, Named s ∧ s.simplify.reach < e.reach := by
  have none {es : List (Expr κ)} (h : Splits e es) :
      Splits e es ∧ ∀ s ∈ ([] : List (Expr κ)), Named s ∧ s.simplify.reach < e.reach :=
    ⟨h, by simp⟩
  cases e with
  | var x => exact none (splits_singleton hnamed rfl le_rfl)
  | const c => exact none (splits_singleton hnamed rfl le_rfl)
  | add a b => exact none (.add (hsplit a (by simp [operands])) (hsplit b (by simp [operands])))
  | sub a b => exact none (.sub (hsplit a (by simp [operands])) (hsplit b (by simp [operands])))
  | mul a b => exact none (.mul (hsplit a (by simp [operands])) (hsplit b (by simp [operands])))
  | div a b => exact none (.div (hsplit a (by simp [operands])) (hsplit b (by simp [operands])))
  | apply g a => exact none (.apply g (hsplit a (by simp [operands])))
  | pow a b =>
      have ha := hsplit a (by simp [operands])
      have hb := hsplit b (by simp [operands])
      simp only [expandedRoot, rebuiltSums]
      split
      · rename_i k hk
        split
        · exact none (ha.pow_natural (onlyNames_pow.1 hnamed).2 (expandedExponent?_spec hk).1)
        · rename_i hlength
          exact splits_powerTerms hagain ha (not_lt.1 hlength) hk hn
      · refine none ?_
        cases hnatural : b.naturalExponent? with
        | none => exact ha.pow hb hnatural
        | some k =>
            -- too high a power: the exponent is a number and stays one
            obtain ⟨c, rfl⟩ := exists_const_of_naturalExponent? hnatural
            have hcollect : (sumOf [(.const c : Expr κ)]).simplify = .const c := rfl
            rw [hconst, hcollect]
            exact ha.pow_natural (onlyNames_const c) hnatural

/-- **The terms of an expression reach less far** than the expression. -/
theorem splits_expandedTermsWith (hagain : SplitsBelow again n) (hnamed : Named e)
    (hn : e.reach ≤ n) : Splits e (e.expandedTermsWith again) := by
  induction e using operand_induction with
  | step e ih =>
      rw [expandedTermsWith_eq_root]
      exact (splits_root hagain (fun _ => rfl) (fun a ha =>
        ih a ha (named_operands hnamed a ha) ((reach_operand ha).trans hn)) hnamed hn).1

/-! ### The recursion of the rules -/

theorem splits_expandedTermsWithin (n : ℕ) : ∀ e : Expr κ, Named e → e.reach ≤ n →
    Splits e (expandedTermsWithin n e) := by
  induction n with
  | zero => exact fun e => splits_expandedTermsWith fun f _ hlt => absurd hlt (Nat.not_lt_zero _)
  | succ n ih =>
      exact fun e => splits_expandedTermsWith fun f hf hlt => ih f hf (Nat.lt_succ_iff.1 hlt)

/-- The terms of an expression depend on the splitting of what reaches less far only. -/
theorem expandedTermsWith_congr (hagain : SplitsBelow again n)
    (heq : ∀ f, Named f → f.reach < n → again f = again' f) (hnamed : Named e)
    (hn : e.reach ≤ n) : e.expandedTermsWith again = e.expandedTermsWith again' := by
  induction e using operand_induction with
  | step e ih =>
      have hoperand : ∀ a ∈ e.operands, Named a ∧ a.reach ≤ n := fun a ha =>
        ⟨named_operands hnamed a ha, (reach_operand ha).trans hn⟩
      have hsums := (splits_root hagain (fun _ => rfl) (fun a ha =>
        splits_expandedTermsWith hagain (hoperand a ha).1 (hoperand a ha).2) hnamed hn).2
      rw [expandedTermsWith_eq_root, expandedTermsWith_eq_root]
      refine expandedRoot_congr (fun a ha => ih a ha (hoperand a ha).1 (hoperand a ha).2)
        (fun _ _ => rfl) fun s hs => ?_
      obtain ⟨hs, hlt⟩ := hsums s hs
      exact heq _ (onlyNames_simplify hs) (hlt.trans_le hn)

/-- The bound on powers within powers is never felt. -/
theorem expandedTermsWithin_eq (n : ℕ) : ∀ (k : ℕ) (e : Expr κ), n ≤ k → Named e → e.reach ≤ n →
    expandedTermsWithin k e = e.expandedTermsWith expandedTerms := by
  induction n using Nat.strong_induction_on with
  | _ n ih =>
      intro k e hk hnamed hn
      cases k with
      | zero =>
          have hnone {f : Expr κ} (hlt : f.reach < n) : False := by omega
          exact expandedTermsWith_congr (fun f _ hlt => (hnone hlt).elim)
            (fun f _ hlt => (hnone hlt).elim) hnamed hn
      | succ k =>
          have hagain : SplitsBelow (κ := κ) (expandedTermsWithin k) n := fun f hf hlt =>
            splits_expandedTermsWithin k f hf (by omega)
          refine expandedTermsWith_congr hagain (fun f hf hlt => ?_) hnamed hn
          have hterms : f.expandedTerms = expandedTermsWithin (f.reach + 1) f := rfl
          rw [hterms, ih f.reach hlt k f (by omega) hf le_rfl,
            ih f.reach hlt (f.reach + 1) f (Nat.le_succ _) hf le_rfl]

theorem expandedTerms_eq_pass (hnamed : Named e) :
    e.expandedTerms = e.expandedTermsWith expandedTerms :=
  expandedTermsWithin_eq e.reach (e.reach + 1) e (Nat.le_succ _) hnamed le_rfl

theorem splits_expandedTerms (hnamed : Named e) : Splits e e.expandedTerms :=
  splits_expandedTermsWithin (e.reach + 1) e hnamed (Nat.le_succ _)

/-- **Expansion is the recursion of its rules**: the terms of an expression are computed from those
of its operands and of the sums that are collected in a power. -/
theorem expandedTerms_eq (hnamed : Named e) :
    e.expandedTerms = e.expandedStep simplify expandedTerms := by
  rw [expandedTerms_eq_pass hnamed, expandedTermsWith_eq_root]
  refine expandedRoot_congr (fun a ha => ?_) (fun _ _ => rfl) fun _ _ => rfl
  exact (expandedTerms_eq_pass (named_operands hnamed a ha)).symm

theorem rebuiltSums_decrease (hnamed : Named e) :
    ∀ s ∈ e.rebuiltSums simplify expandedTerms expandedTerms,
      Named s ∧ s.simplify.reach < e.reach :=
  (splits_root (n := e.reach) (fun _ hf _ => splits_expandedTerms hf) (fun _ => rfl)
    (fun a ha => splits_expandedTerms (named_operands hnamed a ha)) hnamed le_rfl).2

/-- The sums that are simplified in an expansion have identifiers as names. -/
theorem named_collectedSums (hnamed : Named e) :
    ∀ s ∈ e.collectedSums simplify expandedTerms expandedTerms, Named s :=
  List.forall_mem_append.2 ⟨List.forall_mem_map.2 fun a ha =>
      (splits_expandedTerms (named_operands hnamed a ha)).named.sumOf,
    fun s hs => (rebuiltSums_decrease hnamed s hs).1⟩

/-! ### The bounds are not felt -/

/-- The bound on rebuilt trees within rebuilt trees is not felt. -/
theorem simplify_eq_unbounded (hnamed : Named e) : e.simplify = e.unboundedSimplify := by
  refine simplify_induction (P := fun e => e.simplify = e.unboundedSimplify)
    (fun e hnamed ih => ?_) hnamed
  rw [simplify_eq hnamed, simplifyStep_congr ih]
  exact (recurses_simplify e).equation

/-- The reach of an expression, and among expressions of one reach the size. -/
def reachMeasure (e : Expr κ) : ℕ ×ₗ ℕ := toLex (e.reach, e.size)

/-- The bound on powers within powers is not felt. -/
theorem expandedTerms_eq_unbounded (hnamed : Named e) : e.expandedTerms = e.unboundedTerms := by
  induction e using
      (InvImage.wf (fun f : Expr κ => f.reachMeasure) wellFounded_lt).induction with
  | _ e ih =>
      rw [expandedTerms_eq hnamed, ← (recurses_expand e).equation]
      refine expandedRoot_congr (fun a ha => ih a ?_ (named_operands hnamed a ha))
        (fun s hs => simplify_eq_unbounded (named_collectedSums hnamed s hs)) fun s hs => ?_
      · have := reach_operand ha
        have := size_operand ha
        refine Prod.Lex.toLex_lt_toLex.2 ?_
        dsimp only
        omega
      · obtain ⟨hs, hlt⟩ := rebuiltSums_decrease hnamed s hs
        exact ih _ (Prod.Lex.toLex_lt_toLex.2 (.inl hlt)) (onlyNames_simplify hs)

end Exact

/-! ### Termination -/

/-- The expansion of an expression without a bound. -/
noncomputable def unboundedExpand (e : Expr κ) : Expr κ :=
  (sumOf e.unboundedTerms).unboundedSimplify

/-- Rationalization with other functions for simplification and expansion. -/
def rationalizeWith (tidy expand : Expr κ → Expr κ) (e : Expr κ) : Expr κ :=
  let p := (tidy e).toFraction
  let num := expand p.num
  match expand p.den with
  | .const c =>
      if isOne c then num
      else if isZero c then .div num (.const c)
      else expand (.div num (.const c))
  | den => .div num den

/-- The expressions that rationalization expands: a numerator and a denominator, and their quotient
if the denominator becomes a number. -/
def rationalizeCalls (tidy expand : Expr κ → Expr κ) (e : Expr κ) : List (Expr κ) :=
  let p := (tidy e).toFraction
  [p.num, p.den, .div (expand p.num) (expand p.den)]

theorem rationalize_eq_with (e : Expr κ) : e.rationalize = e.rationalizeWith simplify expand := rfl

/-- Rationalization depends on no other calls. -/
theorem rationalizeWith_congr {expand expand' tidy tidy' : Expr κ → Expr κ}
    (htidy : tidy e = tidy' e)
    (hexpand : ∀ f ∈ e.rationalizeCalls tidy expand, expand f = expand' f) :
    e.rationalizeWith tidy expand = e.rationalizeWith tidy' expand' := by
  simp only [rationalizeCalls, List.forall_mem_cons] at hexpand
  obtain ⟨hnum, hden, hquotient, -⟩ := hexpand
  unfold rationalizeWith
  rw [← htidy]
  dsimp only
  rw [← hnum, ← hden]
  split
  · rename_i c hc
    rw [hc] at hquotient
    rw [hquotient]
  · rfl

/-- The rationalization of an expression without a bound. -/
noncomputable def unboundedRationalize (e : Expr κ) : Expr κ :=
  e.rationalizeWith unboundedSimplify unboundedExpand

section Exact

variable [ExactNumber κ]

theorem expand_eq_unbounded (hnamed : Named e) : e.expand = e.unboundedExpand := by
  rw [expand, collect, simplify_eq_unbounded (splits_expandedTerms hnamed).named.sumOf,
    expandedTerms_eq_unbounded hnamed, unboundedExpand]

omit [ExactNumber κ] in
/-- What rationalization expands has identifiers as names. -/
theorem named_rationalizeCalls (hnamed : Named e) :
    ∀ f ∈ e.rationalizeCalls simplify expand, Named f := by
  obtain ⟨hnum, hden⟩ := onlyNames_toFraction (onlyNames_simplify hnamed)
  simp only [rationalizeCalls, List.forall_mem_cons]
  exact ⟨hnum, hden, onlyNames_div.2 ⟨onlyNames_expand hnum, onlyNames_expand hden⟩, by simp⟩

theorem rationalize_eq_unbounded (hnamed : Named e) : e.rationalize = e.unboundedRationalize := by
  rw [rationalize_eq_with, unboundedRationalize]
  exact rationalizeWith_congr (simplify_eq_unbounded hnamed) fun f hf =>
    expand_eq_unbounded (named_rationalizeCalls hnamed f hf)

end Exact

/-- The calculations with an expression end.  Simplification and expansion are recursions whose
calls decrease, also those on rebuilt trees and on the simplified sums that are collected in a
power, so that their rules describe one function each.  Rationalization calls these two for the
expression, the numerator, the denominator and the quotient.  The bounds of the definitions are not
felt: simplification gives the same result with any bound that is large enough, and the bounds in
use are large enough for exact numbers and identifiers as names. -/
structure Terminates (e : Expr κ) : Prop where
  /-- Simplification calls itself on smaller expressions only. -/
  simplify : Recurses unboundedSimplify simplifyStep simplifyCalls simplificationMeasure e
  /-- There is no other function that simplifies by the same rules. -/
  simplify_unique : ∀ again : Expr κ → Expr κ, (∀ f, simplifyStep again f = again f) →
    again e = e.unboundedSimplify
  /-- Expansion calls itself on smaller expressions only. -/
  expand : Recurses unboundedTerms (expandedStep unboundedSimplify)
    (expansionCalls unboundedSimplify) expansionMeasure e
  /-- There is no other function that expands by the same rules. -/
  expand_unique : ∀ again : Expr κ → List (Expr κ),
    (∀ f, expandedStep unboundedSimplify again f = again f) → again e = e.unboundedTerms
  /-- Rationalization simplifies once and expands at most three times. -/
  rationalize : ∀ tidy expand : Expr κ → Expr κ, e.unboundedSimplify = tidy e →
    (∀ f ∈ e.rationalizeCalls unboundedSimplify unboundedExpand, f.unboundedExpand = expand f) →
    e.unboundedRationalize = e.rationalizeWith tidy expand
  /-- Any bound on the number of passes that is large enough gives the same result. -/
  passes : ∃ m, ∀ n, m ≤ n → e.simplifyWithin n = e.unboundedSimplify
  /-- The bounds in use are large enough for exact numbers and identifiers. -/
  exact : ∀ [ExactNumber κ], Named e → e.simplify = e.unboundedSimplify ∧
    e.expand = e.unboundedExpand ∧ e.rationalize = e.unboundedRationalize

/-- **Simplification, expansion and rationalization terminate** on every expression, whatever its
numbers and names are. -/
theorem simplify_expand_rationalize_terminate (e : Expr κ) : e.Terminates where
  simplify := recurses_simplify e
  simplify_unique _ hagain := eq_unboundedSimplify hagain e
  expand := recurses_expand e
  expand_unique _ hagain := eq_unboundedTerms hagain e
  rationalize _ _ htidy hexpand := rationalizeWith_congr htidy hexpand
  passes := exists_simplifyWithin_eq e
  exact hnamed := ⟨simplify_eq_unbounded hnamed, expand_eq_unbounded hnamed,
    rationalize_eq_unbounded hnamed⟩

end Reckoner.Expr
