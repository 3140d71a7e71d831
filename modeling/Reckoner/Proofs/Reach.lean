/-
**Simplification reaches no further.**

Expansion multiplies out powers within powers as deep as the reach of an expression allows.  After
every factor the sum that has been multiplied out so far is simplified, and so the bound is of use
only if simplification does not increase the reach.  That is the subject of this module.

A sum reaches one step further than its terms, so that collecting the like terms of a sum is
harmless if every term reaches at most as far as before.  The factors of a product add up, and a
power counts its base as often as its exponent says, up to a limit; merging factors never adds more
than the exponents themselves.  An exponent that is not a natural number counts as much as the
limit, since it may become any natural number in the course of simplification.

As a term of a sum, a sum stands for its own terms and reaches no further than it does alone,
whereas any other expression does.  A multiple of a sum is multiplied out, so that as a term it is
measured like the sum itself.  These two cases are why the reach of the result is bounded twice,
alone and as a term.

Main definitions:

* `Reckoner.Expr.termReach` — the reach of an expression as a term of a sum;
* `Reckoner.Expr.termBound` — the same, where a multiple of a sum counts as the sum;
* `Reckoner.Expr.Nearer` — the relation of an expression to one that reaches no further;
* `Reckoner.Expr.factorReach` — the reach of a power as a factor.

Main results:

* `Reckoner.Expr.termReach_toExpr_le` — a collected sum reaches no further than its terms;
* `Reckoner.Expr.factorReach_add_le` — merged factors reach no further than both together;
* `Reckoner.Expr.nearer_simplify` — **simplification does not increase the reach**.
-/

import Reckoner.Proofs.Recursion

set_option autoImplicit false

namespace Reckoner

open Arithmetic (isZero isOne isNegative integer? one)

variable {κ : Type} [Number κ]

namespace Expr

variable {a b e f u : Expr κ} {es : List (Expr κ)} {c d : κ} {n r : ℕ}

/-! ### Terms of a sum -/

/-- The reach of an expression as a term of a sum. -/
def termReach (e : Expr κ) : ℕ := e.asTerm e.reach

theorem termReach_of_isSum (h : e.isSum = true) : e.termReach = e.reach := by
  simp [termReach, asTerm, h]

theorem termReach_of_not_isSum (h : e.isSum = false) : e.termReach = e.reach + 1 := by
  simp [termReach, asTerm, h]

theorem reach_le_termReach (e : Expr κ) : e.reach ≤ e.termReach := by
  unfold termReach asTerm
  split <;> omega

theorem termReach_le (e : Expr κ) : e.termReach ≤ e.reach + 1 := by
  unfold termReach asTerm
  split <;> omega

@[simp] theorem termReach_const (c : κ) : (Expr.const c).termReach = 1 := rfl

@[simp] theorem termReach_ofInt (k : ℤ) : (ofInt k : Expr κ).termReach = 1 := rfl

@[simp] theorem reach_ofInt (k : ℤ) : (ofInt k : Expr κ).reach = 0 := rfl

@[simp] theorem reach_add : (Expr.add a b).reach = max a.termReach b.termReach := rfl

@[simp] theorem reach_sub : (Expr.sub a b).reach = max a.termReach b.termReach := rfl

@[simp] theorem termReach_add : (Expr.add a b).termReach = max a.termReach b.termReach := rfl

@[simp] theorem termReach_sub : (Expr.sub a b).termReach = max a.termReach b.termReach := rfl

@[simp] theorem reach_negated : e.negated.reach = e.reach := Nat.zero_add _

theorem reach_div : (Expr.div a b).reach = a.reach + 17 * b.reach + 2 := rfl

theorem termReach_pos (e : Expr κ) : 1 ≤ e.termReach := by
  induction e with
  | add a b iha _ | sub a b iha _ => exact iha.trans (le_max_left _ _)
  | _ => exact Nat.succ_pos _

/-! ### Exponents -/

theorem multiplicity_eq (n : ℕ) : multiplicity n = max 2 (min n 17) := rfl

theorem two_le_multiplicity (n : ℕ) : 2 ≤ multiplicity n := le_max_left _ _

/-- A power of a power counts its base at most as often as both powers say. -/
theorem multiplicity_mul_le (i j : ℕ) :
    multiplicity (i * j) ≤ multiplicity j * multiplicity i := by
  have large {n : ℕ} (h : 17 ≤ n) : multiplicity n = 17 := by rw [multiplicity_eq]; omega
  have small {n : ℕ} (h : n < 17) : n ≤ multiplicity n := by rw [multiplicity_eq]; omega
  have hi := two_le_multiplicity i
  have hj := two_le_multiplicity j
  rw [multiplicity_eq (i * j)]
  refine max_le ?_ ?_
  · have := Nat.mul_le_mul hj hi
    omega
  · rcases le_or_gt 17 i with hlarge | hsmall
    · rw [large hlarge]
      omega
    · rcases le_or_gt 17 j with hlarge' | hsmall'
      · rw [large hlarge']
        omega
      · calc min (i * j) 17 ≤ j * i := by rw [mul_comm]; exact min_le_left _ _
          _ ≤ multiplicity j * multiplicity i := Nat.mul_le_mul (small hsmall') (small hsmall)

theorem reach_pow_of_natural (h : b.naturalExponent? = some n) :
    (Expr.pow a b).reach = multiplicity n * a.reach := by
  rw [reach, h]

theorem reach_pow_of_none (h : b.naturalExponent? = none) :
    (Expr.pow a b).reach = 17 * a.reach + b.termReach + 1 := by
  rw [reach, h]
  rfl

/-- A natural number as an exponent is a number. -/
theorem exists_const_of_naturalExponent? (h : b.naturalExponent? = some n) : ∃ c, b = .const c := by
  cases b with
  | const c => exact ⟨c, rfl⟩
  | _ => simp [naturalExponent?] at h

/-- A power counts its base at most as often as any. -/
theorem reach_pow_le (a b : Expr κ) : (Expr.pow a b).reach ≤ 17 * a.reach + b.termReach + 1 := by
  cases h : b.naturalExponent? with
  | none => rw [reach_pow_of_none h]
  | some n =>
      have hle : multiplicity n * a.reach ≤ 17 * a.reach :=
        Nat.mul_le_mul_right _ (by rw [multiplicity_eq]; omega)
      rw [reach_pow_of_natural h]
      omega

/-- A power counts its base twice at least. -/
theorem le_reach_pow (a b : Expr κ) : 2 * a.reach ≤ (Expr.pow a b).reach := by
  cases h : b.naturalExponent? with
  | none =>
      rw [reach_pow_of_none h]
      omega
  | some n =>
      rw [reach_pow_of_natural h]
      exact Nat.mul_le_mul_right _ (two_le_multiplicity n)

/-! ### Factors and terms -/

theorem additive_reach : Additive (κ := κ) reach := ⟨fun _ => rfl, fun _ _ => rfl⟩

/-- A term of a sum reaches less far than the sum. -/
theorem reach_terms_lt (c : κ) (e : Expr κ) : ∀ t ∈ terms c e, t.reach < e.termReach := by
  have single {e : Expr κ} (h : e.isSum = false) (c : κ) :
      ∀ t ∈ [scaled c e], t.reach < e.termReach := by
    rw [List.forall_mem_singleton, additive_reach.scaled, termReach_of_not_isSum h]
    exact Nat.lt_succ_self _
  fun_induction terms c e with
  | case1 c a b iha ihb | case2 c a b iha ihb =>
      exact List.forall_mem_append.2 ⟨fun t ht => lt_max_of_lt_left (iha t ht),
        fun t ht => lt_max_of_lt_right (ihb t ht)⟩
  | case3 c d => simp [reach]
  | case4 c d b h ih =>
      intro t ht
      calc t.reach < b.termReach := ih t ht
        _ = b.reach := termReach_of_isSum h
        _ ≤ (Expr.mul (.const d) b).termReach := (Nat.zero_add _).ge.trans (Nat.le_succ _)
  | case6 c a d _ h ih =>
      intro t ht
      calc t.reach < a.termReach := ih t ht
        _ = a.reach := termReach_of_isSum h
        _ ≤ (Expr.mul a (.const d)).termReach := Nat.le_succ _
  | case9 c e hadd hsub hconst hmul =>
      refine single ?_ c
      cases e <;> simp_all [isSum]
  | _ => exact single rfl _

end Expr

/-! ### Monomials -/

namespace Monomial

open Reckoner.Expr (ofText)

/-- The reach of a power of an atom in a monomial. -/
noncomputable def powerReach (κ : Type) [Number κ] (p : String × ℤ) : ℕ :=
  min p.2.toNat 17 * (ofText κ p.1).reach

theorem powerReach_add_le (key : String) (j n : ℤ) :
    powerReach κ (key, j + n) ≤ powerReach κ (key, j) + powerReach κ (key, n) := by
  simp only [powerReach]
  rw [← Nat.add_mul]
  exact Nat.mul_le_mul_right _ (by omega)

end Monomial

namespace Expr

variable {a b e f u : Expr κ} {es : List (Expr κ)} {c d : κ} {n r : ℕ} {m : Monomial}
variable {s : Collection κ}

section Exact

variable [ExactNumber κ]

/-- A natural number as an exponent is known by its value. -/
theorem naturalExponent?_eq_some_iff : e.naturalExponent? = some n ↔ e = ofInt n := by
  cases e with
  | const c =>
      rw [ofInt, const.injEq, ← (ExactNumber.value_injective (κ := κ)).eq_iff,
        ExactNumber.value_ofInt, ← integer?_eq_some_iff]
      unfold naturalExponent?
      dsimp only
      cases hc : integer? c with
      | none => simp
      | some k =>
          dsimp only
          split <;> simp <;> omega
  | _ => simp [naturalExponent?, ofInt]

theorem naturalExponent?_ofInt (n : ℕ) : (ofInt n : Expr κ).naturalExponent? = some n :=
  naturalExponent?_eq_some_iff.2 rfl

/-- A written power reaches as far as in its monomial. -/
theorem reach_writtenPower {p : String × ℤ} (hp : 0 < p.2) :
    (writtenPower p : Expr κ).reach = Monomial.powerReach κ p := by
  obtain ⟨key, k⟩ := p
  lift k to ℕ using hp.le
  unfold writtenPower Monomial.powerReach
  dsimp only
  split
  · rename_i hone
    simp [hone]
  · rw [reach_pow_of_natural (naturalExponent?_ofInt k), Int.toNat_natCast, multiplicity_eq]
    congr 1
    omega

/-- The atom of a factor reaches no further than the factor, with its exponent. -/
theorem powerReach_atomPower_le (hnamed : Named f) :
    Monomial.powerReach κ (f.atomPower.1.text, f.atomPower.2) ≤ f.reach := by
  rw [atomPower_eq]
  unfold Monomial.powerReach
  fun_cases power f with
  | case1 base c k hk hpos =>
      have hkpos : 0 < k := by simpa using (Bool.and_eq_true_iff.1 hpos).1
      lift k to ℕ using hkpos.le
      have hnatural : (Expr.const c : Expr κ).naturalExponent? = some k := by
        simp [naturalExponent?, hk]
      rw [ofText_text (onlyNames_pow.1 hnamed).1, reach_pow_of_natural hnatural, multiplicity_eq]
      exact Nat.mul_le_mul_right _ (by omega)
  | _ =>
      rw [ofText_text hnamed]
      exact (Nat.mul_le_mul_right _ (by simp)).trans (Nat.one_mul _).le

/-- The monomial of a term reaches no further than the term. -/
theorem powerReach_monomial_le (he : ∀ f ∈ e.factors, f.isConst = false → Named f) :
    Monomial.total (Monomial.powerReach κ) e.monomial ≤ e.reach := by
  refine additive_reach.monomial_le fun f hf hc => ?_
  have hatom := powerReach_atomPower_le (he f hf hc)
  exact ⟨hatom, fun j => (Monomial.powerReach_add_le _ j _).trans (by omega)⟩

/-! ### Collected sums -/

/-- **A collected sum reaches no further than its terms** do in a sum. -/
theorem termReach_toExpr_le (hes : ∀ t ∈ es, ∀ f ∈ t.factors, f.isConst = false → Named f)
    (hr : 1 ≤ r) (hlt : ∀ t ∈ es, t.reach < r) :
    (Collection.ofTerms es).toExpr.termReach ≤ r := by
  have hover : Collection.Over Named (Collection.ofTerms es) := by
    refine Collection.ofTerms_over fun t ht f hf hc => ?_
    rw [atomPower_eq]
    exact hereditary_named.power (hes t ht f hf hc)
  -- the term of a monomial, whatever its number
  have term : ∀ t ∈ (Collection.ofTerms es).ordered, ∀ c : κ,
      (writtenTerm t.1 c).termReach ≤ r := by
    intro t ht c
    obtain ⟨t', ht', hm⟩ := Collection.exists_monomial_eq (Collection.mem_sums_of_mem_ordered ht)
    have hpositive : ∀ p ∈ t.1, 0 < p.2 := hm ▸ (monomial_proper t').positive
    calc (writtenTerm t.1 c).termReach
        ≤ (writtenTerm t.1 c).reach + 1 := termReach_le _
      _ = Monomial.total (Monomial.powerReach κ) t'.monomial + 1 := by
        rw [additive_reach.writtenTerm (fun p hp => reach_writtenPower (hpositive p hp)), hm]
      _ ≤ t'.reach + 1 := Nat.succ_le_succ (powerReach_monomial_le (hes t' ht'))
      _ ≤ r := hlt t' ht'
  have append {e : Expr κ} {t : Monomial × κ} (he : e.termReach ≤ r)
      (ht : ∀ c : κ, (writtenTerm t.1 c).termReach ≤ r) : (appendWritten e t).termReach ≤ r := by
    unfold appendWritten
    split <;> exact max_le he (ht _)
  have fold (l : List (Monomial × κ)) (e : Expr κ) (he : e.termReach ≤ r)
      (hl : ∀ t ∈ l, ∀ c : κ, (writtenTerm t.1 c).termReach ≤ r) :
      (l.foldl appendWritten e).termReach ≤ r := by
    induction l generalizing e with
    | nil => exact he
    | cons t l ih =>
        obtain ⟨ht, hl⟩ := List.forall_mem_cons.1 hl
        exact ih _ (append he ht) hl
  rw [Collection.toExpr_eq_writtenSum hover]
  cases hl : (Collection.ofTerms es).ordered with
  | nil => simpa [writtenSum] using hr
  | cons t l =>
      rw [hl] at term
      obtain ⟨ht, hrest⟩ := List.forall_mem_cons.1 term
      exact fold l _ (ht t.2) hrest

/-! ### Reaching no further -/

/-- The reach of a simplified expression as a term of a sum, at most.  A multiple of a sum counts
as the sum, because it is multiplied out. -/
def termBound : Expr κ → ℕ
  | .mul (.const _) b => b.termReach
  | e => e.termReach

omit [ExactNumber κ] in
theorem termBound_le (e : Expr κ) : e.termBound ≤ e.termReach := by
  unfold termBound
  split
  · rename_i c b
    exact (termReach_le b).trans (Nat.succ_le_succ (Nat.zero_add _).ge)
  · exact le_rfl

/-- The second expression reaches no further than the first one, alone and as a term. -/
structure Nearer (e u : Expr κ) : Prop where
  /-- Alone. -/
  reach_le : u.reach ≤ e.reach
  /-- As a term of a sum. -/
  termReach_le : u.termReach ≤ e.termBound

omit [ExactNumber κ] in
/-- As a term, what is neither a sum nor a multiple reaches further than alone. -/
theorem nearer_of_reach_le (h : u.reach ≤ e.reach) (he : e.termBound = e.reach + 1) :
    Nearer e u := ⟨h, by rw [he]; exact (termReach_le u).trans (Nat.succ_le_succ h)⟩

omit [ExactNumber κ] in
/-- As a term, a sum reaches as far as alone. -/
theorem nearer_of_termReach_le (h : u.termReach ≤ e.reach) (he : e.termBound = e.reach) :
    Nearer e u := ⟨(reach_le_termReach u).trans h, by rwa [he]⟩

/-! ### Merged factors -/

/-- The reach of a power as a factor; the exponent one is left out. -/
def factorReach (p : Expr κ × Expr κ) : ℕ :=
  if p.2.isOneConst then p.1.reach else (Expr.pow p.1 p.2).reach

omit [ExactNumber κ] in
theorem factorReach_le (p : Expr κ × Expr κ) : factorReach p ≤ (Expr.pow p.1 p.2).reach := by
  have := le_reach_pow p.1 p.2
  unfold factorReach
  split <;> omega

theorem factorReach_ofInt (a : Expr κ) (n : ℕ) :
    factorReach (a, ofInt n) = (if n = 1 then 1 else multiplicity n) * a.reach := by
  have hone : (ofInt n : Expr κ).isOneConst = true ↔ n = 1 := by
    rw [isOneConst_ofInt]
    norm_cast
  unfold factorReach
  by_cases h : n = 1
  · rw [if_pos (hone.2 h), if_pos h, one_mul]
  · rw [if_neg (mt hone.1 h), if_neg h, reach_pow_of_natural (naturalExponent?_ofInt n)]

/-- Any other exponent counts as much as the limit. -/
theorem factorReach_of_none (a : Expr κ) (h : b.naturalExponent? = none) :
    factorReach (a, b) = 17 * a.reach + b.termReach + 1 := by
  have hone : b.isOneConst ≠ true := by
    intro hone
    obtain ⟨c, rfl⟩ := exists_const_of_isOneConst hone
    have hc : integer? c = some 1 := by
      rw [integer?_eq_some_iff, isOne_iff_value.1 hone, Int.cast_one]
    simp [naturalExponent?, hc] at h
  rw [factorReach, if_neg hone, reach_pow_of_none h]

theorem simplify_add_ofInt (j k : ℤ) :
    (Expr.add (ofInt j) (ofInt k) : Expr κ).simplify = ofInt (j + k) := by
  have hfold : (Expr.add (ofInt j) (ofInt k) : Expr κ).simplify =
      .const (Arithmetic.ofInt j + Arithmetic.ofInt k) := foldsSums_simplifyWithin _ _ _
  rw [hfold, ofInt_add_ofInt]
  rfl

/-- **Merged factors reach no further than both together.** -/
theorem factorReach_add_le (a : Expr κ) {m k : Expr κ}
    (hsum : Nearer (.add m k) (Expr.add m k).simplify) :
    factorReach (a, (Expr.add m k).simplify) ≤ factorReach (a, m) + factorReach (a, k) := by
  have hterm : (Expr.add m k).simplify.termReach ≤ max m.termReach k.termReach := hsum.termReach_le
  have hpow := (factorReach_le (a, (Expr.add m k).simplify)).trans (reach_pow_le _ _)
  dsimp only at hpow
  have hmpos := m.termReach_pos
  have hkpos := k.termReach_pos
  cases hm : m.naturalExponent? with
  | some i =>
      obtain rfl := naturalExponent?_eq_some_iff.1 hm
      cases hk : k.naturalExponent? with
      | some j =>
          obtain rfl := naturalExponent?_eq_some_iff.1 hk
          have hij : ((i : ℤ) + (j : ℤ)) = ((i + j : ℕ) : ℤ) := (Nat.cast_add i j).symm
          rw [simplify_add_ofInt, hij, factorReach_ofInt, factorReach_ofInt, factorReach_ofInt,
            ← Nat.add_mul]
          refine Nat.mul_le_mul_right _ ?_
          simp only [multiplicity_eq]
          split <;> split <;> split <;> omega
      | none =>
          rw [factorReach_of_none a hk]
          simp only [termReach_ofInt] at hterm
          omega
  | none =>
      rw [factorReach_of_none a hm]
      cases hk : k.naturalExponent? with
      | some j =>
          obtain rfl := naturalExponent?_eq_some_iff.1 hk
          simp only [termReach_ofInt] at hterm
          omega
      | none =>
          rw [factorReach_of_none a hk]
          omega

/-- The reaches of the factors of a product together. -/
def factorReaches (ps : List (Expr κ × Expr κ)) : ℕ := (ps.map factorReach).sum

omit [ExactNumber κ] in
@[simp] theorem factorReaches_nil : factorReaches ([] : List (Expr κ × Expr κ)) = 0 := rfl

omit [ExactNumber κ] in
@[simp] theorem factorReaches_cons (p : Expr κ × Expr κ) (ps : List (Expr κ × Expr κ)) :
    factorReaches (p :: ps) = factorReach p + factorReaches ps := by
  simp [factorReaches]

theorem factorReaches_mergePower_le {p : Expr κ × Expr κ} {ps : List (Expr κ × Expr κ)}
    (hcalls : ∀ f ∈ mergeCalls p.1 p.2 ps, Nearer f f.simplify) :
    factorReaches (mergePower simplify p.1 p.2 ps) ≤ factorReaches ps + factorReach p := by
  induction ps with
  | nil => simp [mergePower]
  | cons q ps ih =>
      obtain ⟨b, m⟩ := q
      obtain ⟨base, k⟩ := p
      simp only [mergeCalls] at hcalls
      simp only [mergePower]
      split
      · rename_i hsame
        rw [if_pos hsame, List.forall_mem_singleton] at hcalls
        obtain rfl := same_iff_eq.1 hsame
        have := factorReach_add_le b hcalls
        rw [factorReaches_cons, factorReaches_cons]
        omega
      · rename_i hsame
        rw [if_neg hsame] at hcalls
        have := ih hcalls
        rw [factorReaches_cons, factorReaches_cons]
        dsimp only at this
        omega

/-- A factor as a power reaches no further than the factor. -/
theorem factorReach_baseAndExponent_le (f : Expr κ) : factorReach f.baseAndExponent ≤ f.reach := by
  unfold baseAndExponent
  split
  · exact factorReach_le _
  · have := factorReach_ofInt f 1
    rw [if_pos rfl, one_mul] at this
    exact this.le

theorem factorReaches_mergeFactors_le {ps : List (Expr κ × Expr κ)}
    (hcalls : ∀ f ∈ factorCalls simplify ps es, Nearer f f.simplify) :
    factorReaches (mergeFactors simplify c ps es).2 ≤ factorReaches ps + total reach es := by
  induction es generalizing c ps with
  | nil => exact le_rfl
  | cons e es ih =>
      rw [factorCalls] at hcalls
      rw [total_cons]
      cases hc : e.isConst with
      | true =>
          obtain ⟨d, rfl⟩ := exists_const_of_isConst hc
          rw [if_pos hc] at hcalls
          have := ih (c := c * d) hcalls
          rw [mergeFactors_const]
          omega
      | false =>
          rw [hc, if_neg Bool.false_ne_true] at hcalls
          obtain ⟨hmerge, hrest⟩ := List.forall_mem_append.1 hcalls
          have hpower := factorReach_baseAndExponent_le e
          have hstep := factorReaches_mergePower_le hmerge
          have := ih (c := c) hrest
          rw [mergeFactors_cons hc]
          omega

/-- **A product with merged factors reaches no further.** -/
theorem reach_simplifyProduct_le
    (hcalls : ∀ f ∈ factorCalls simplify [] e.factors, Nearer f f.simplify) :
    (simplifyProduct simplify e).reach ≤ e.reach := by
  have hmerged := factorReaches_mergeFactors_le (c := one) hcalls
  rw [factorReaches_nil, zero_add, additive_reach.factors] at hmerged
  have factors (ps : List (Expr κ × Expr κ)) :
      total reach (ps.filterMap factor?) ≤ factorReaches ps := by
    induction ps with
    | nil => exact le_rfl
    | cons p ps ih =>
        rw [List.filterMap_cons, factorReaches_cons, factor?, factorReach]
        split_ifs <;> simp only [total_cons] <;> omega
  have hfactors := (factors _).trans hmerged
  unfold simplifyProduct
  dsimp only
  split
  · exact Nat.zero_le _
  · rw [additive_reach.product]
    split
    · exact hfactors
    · rwa [total_cons, reach, zero_add]

/-! ### One rule -/

omit [ExactNumber κ] in
/-- What has several terms reaches further than any of them. -/
theorem reach_terms_lt_reach (h : 2 ≤ (terms c e).length) : ∀ t ∈ terms c e, t.reach < e.reach := by
  revert h
  fun_cases terms c e with
  | case1 a b => exact fun _ => reach_terms_lt c (.add a b)
  | case2 a b => exact fun _ => reach_terms_lt c (.sub a b)
  | case4 d b hsum =>
      intro _ t ht
      calc t.reach < b.termReach := reach_terms_lt _ b t ht
        _ = b.reach := termReach_of_isSum hsum
        _ ≤ (Expr.mul (.const d) b).reach := (Nat.zero_add _).ge
  | case6 a d _ hsum =>
      intro _ t ht
      calc t.reach < a.termReach := reach_terms_lt _ a t ht
        _ = a.reach := termReach_of_isSum hsum
  | _ => simp

theorem termReach_collected?_le (hnamed : Named e) (hu : e.collected? = some u) :
    u.termReach ≤ e.reach := by
  unfold collected? at hu
  dsimp only at hu
  split at hu
  · simp at hu
  · rename_i hlength
    obtain rfl := Option.some.inj hu
    have hlt := reach_terms_lt_reach (not_lt.1 hlength)
    obtain ⟨t, ht⟩ := List.exists_mem_of_ne_nil _ (terms_ne_nil one e)
    exact termReach_toExpr_le (hereditary_named.terms hnamed one)
      (Nat.one_le_iff_ne_zero.2 (Nat.ne_zero_of_lt (hlt t ht))) hlt

omit [ExactNumber κ] in
theorem reach_le_factorReach (a b : Expr κ) : a.reach ≤ factorReach (a, b) := by
  have := le_reach_pow a b
  unfold factorReach
  split <;> dsimp only <;> omega

/-- A quotient of powers of one base reaches further than the power that it is. -/
theorem reach_pow_sub_le (a : Expr κ) {m k : Expr κ}
    (hdifference : Nearer (.sub m k) (Expr.sub m k).simplify) :
    (Expr.pow a (Expr.sub m k).simplify).reach ≤
      factorReach (a, m) + 17 * factorReach (a, k) + 2 := by
  have hterm : (Expr.sub m k).simplify.termReach ≤ max m.termReach k.termReach :=
    hdifference.termReach_le
  have hpow := reach_pow_le a (Expr.sub m k).simplify
  have hbase := reach_le_factorReach a k
  have exponent (b : Expr κ) : b.termReach = 1 ∨
      factorReach (a, b) = 17 * a.reach + b.termReach + 1 := by
    cases h : b.naturalExponent? with
    | some n => exact .inl (by rw [naturalExponent?_eq_some_iff.1 h, termReach_ofInt])
    | none => exact .inr (factorReach_of_none a h)
  rcases exponent m with hm | hm <;> rcases exponent k with hk | hk <;> omega

/-- A power of a power reaches further than the power that it is. -/
theorem reach_pow_mul_le (a : Expr κ) {m : Expr κ} (hc : (integer? c).isSome = true)
    (hproduct : Nearer (.mul m (.const c)) (Expr.mul m (.const c)).simplify) :
    (Expr.pow a (Expr.mul m (.const c)).simplify).reach ≤
      (Expr.pow (.pow a m) (.const c)).reach := by
  have hterm := hproduct.termReach_le.trans ((termBound_le _).trans (termReach_le _))
  have hmul : (Expr.mul m (.const c)).reach = m.reach := rfl
  have hpow := reach_pow_le a (Expr.mul m (.const c)).simplify
  have hbase := le_reach_pow a m
  have hdouble := le_reach_pow (.pow a m) (.const c)
  have hreach := m.reach_le_termReach
  cases hm : m.naturalExponent? with
  | none =>
      have := reach_pow_of_none (a := a) hm
      omega
  | some i =>
      obtain rfl := naturalExponent?_eq_some_iff.1 hm
      obtain ⟨j, hj⟩ := Option.isSome_iff_exists.1 hc
      have hfold : (Expr.mul (ofInt i) (.const c) : Expr κ).simplify = ofInt (i * j) :=
        const_eq_ofInt (by
          rw [ExactNumber.value_mul, ExactNumber.value_ofInt, integer?_eq_some_iff.1 hj,
            Int.cast_mul])
      rw [hfold] at hpow ⊢
      rcases le_or_gt 0 j with hnonneg | hneg
      · lift j to ℕ using hnonneg
        have hcj : (Expr.const c : Expr κ).naturalExponent? = some j := by
          simp [naturalExponent?, hj]
        have hij : ((i : ℤ) * (j : ℤ)) = ((i * j : ℕ) : ℤ) := (Nat.cast_mul i j).symm
        rw [hij, reach_pow_of_natural (naturalExponent?_ofInt _), reach_pow_of_natural hcj,
          reach_pow_of_natural (naturalExponent?_ofInt i), ← mul_assoc]
        exact Nat.mul_le_mul_right _ (multiplicity_mul_le i j)
      · have hnone : (Expr.const c : Expr κ).naturalExponent? = none := by
          simp [naturalExponent?, hj, hneg]
        rw [reach_pow_of_none hnone, termReach_const]
        rw [termReach_ofInt] at hpow
        omega

omit [ExactNumber κ] in
theorem nearer_const (e : Expr κ) (c : κ) : Nearer e (.const c) := by
  refine ⟨Nat.zero_le _, ?_⟩
  unfold termBound
  split <;> exact termReach_pos _

/-- One rule does not increase the reach, if it does not in the trees that it rebuilds.  What is
neither a sum nor a product is measured in one way only, and so is a product unless it is a multiple
of a sum. -/
theorem Rule.nearer (rule : Rule simplify e u) (hnamed : Named e)
    (hcalls : ∀ f ∈ e.rebuilt simplify, Nearer f f.simplify)
    (hbound : e.termBound = e.termReach) : Nearer e u := by
  -- a call whose reach is known
  have call {f : Expr κ} (hf : f ∈ e.rebuilt simplify) (hle : f.reach ≤ e.reach)
      (he : e.isSum = false) : Nearer e f.simplify :=
    nearer_of_reach_le ((hcalls f hf).reach_le.trans hle)
      (hbound.trans (termReach_of_not_isSum he))
  cases rule with
  | keep => exact ⟨le_rfl, hbound.ge⟩
  | collect hu =>
      have hle := termReach_collected?_le hnamed hu
      exact ⟨(reach_le_termReach u).trans hle,
        hle.trans ((reach_le_termReach e).trans hbound.ge)⟩
  | foldAdd | foldSub | foldMul | foldDiv | foldPow | subSelf | zeroMul | mulZero | zeroDiv
  | divSelf | powZero | onePow | foldApply => exact nearer_const _ _
  | zeroAdd => exact nearer_of_termReach_le (le_max_right _ _) rfl
  | addZero => exact nearer_of_termReach_le (le_max_left _ _) rfl
  | subZero => exact nearer_of_termReach_le (le_max_left _ _) rfl
  | @zeroSub a b _ =>
      have hneg := hcalls b.negated (List.mem_singleton.2 rfl)
      exact nearer_of_termReach_le (hneg.termReach_le.trans (le_max_right _ _)) rfl
  | oneMul => exact nearer_of_reach_le (Nat.le_add_left _ _) hbound
  | mulOne => exact nearer_of_reach_le (Nat.le_add_right _ _) hbound
  | product => exact nearer_of_reach_le (reach_simplifyProduct_le hcalls) hbound
  | divOne => exact nearer_of_reach_le (by rw [reach_div]; omega) rfl
  | scale =>
      refine call (by simp [rebuilt, scaledNumerators]) ?_ rfl
      simp only [reach]
      omega
  | @divConst a d _ =>
      refine call ?_ (by simp only [reach]; omega) rfl
      refine List.mem_append_left _ ?_
      unfold scaledNumerators
      split <;> simp_all
  | @cancel a b hsame _ =>
      have hbase := same_iff_eq.1 hsame
      have hdifference := hcalls (.sub a.baseAndExponent.2 b.baseAndExponent.2) (by simp [rebuilt])
      refine call (by simp [rebuilt]) ?_ rfl
      have hle := reach_pow_sub_le a.baseAndExponent.1 hdifference
      have ha : factorReach (a.baseAndExponent.1, a.baseAndExponent.2) ≤ a.reach :=
        factorReach_baseAndExponent_le a
      have hb : factorReach (b.baseAndExponent.1, b.baseAndExponent.2) ≤ b.reach :=
        factorReach_baseAndExponent_le b
      rw [← hbase] at hb
      rw [reach_div]
      omega
  | @powOne _ b _ =>
      have := le_reach_pow u b
      exact nearer_of_reach_le (by omega) rfl
  | @powPow a m c hc =>
      have hproduct := hcalls (.mul m (.const c)) (by simp [rebuilt])
      exact call (by simp [rebuilt]) (reach_pow_mul_le a hc hproduct) rfl

/-! ### Whole expressions -/

/-- A multiple of a sum reaches no further than the sum. -/
theorem nearer_simplifyMul_const (hnamed : Named b) (hsum : b.isSum = true) :
    Nearer (.mul (.const c) b) (simplifyMul simplify (.const c) b) := by
  have hreach : (Expr.mul (.const c) b).reach = b.reach := Nat.zero_add _
  have hterm := termReach_of_isSum hsum
  have hlength : 2 ≤ ((Expr.mul (.const c) b).terms one).length := by
    rw [terms, if_pos hsum]
    exact two_le_length_terms hsum _
  obtain ⟨u, hu⟩ := exists_collected? hlength
  have hcollected := termReach_collected?_le (onlyNames_mul.2 ⟨onlyNames_const c, hnamed⟩) hu
  unfold simplifyMul
  split
  · exact nearer_const _ _
  · split
    · exact nearer_const _ _
    · split
      · exact ⟨hreach.ge, le_rfl⟩
      · split
        · exact nearer_const _ _
        · split
          · rw [hu]
            exact ⟨(reach_le_termReach u).trans hcollected,
              hcollected.trans (hreach.le.trans hterm.ge)⟩
          · rename_i hnot
            simp [isConst, hsum] at hnot

omit [ExactNumber κ] in
theorem simplify_const (c : κ) : (Expr.const c).simplify = .const c := rfl

omit [ExactNumber κ] in
/-- Operands that reach no further make an operation that reaches no further. -/
theorem nearer_mapOperands (h : ∀ a ∈ e.operands, Nearer a a.simplify) :
    (e.mapOperands simplify).reach ≤ e.reach ∧
      (e.mapOperands simplify).termBound ≤ e.termBound := by
  have term {a : Expr κ} (ha : Nearer a a.simplify) : a.simplify.termReach ≤ a.termReach :=
    ha.termReach_le.trans (termBound_le a)
  cases e with
  | var | const => exact ⟨le_rfl, le_rfl⟩
  | add a b | sub a b =>
      simp only [operands, List.forall_mem_cons] at h
      have := max_le_max (term h.1) (term h.2.1)
      exact ⟨this, this⟩
  | mul a b =>
      simp only [operands, List.forall_mem_cons] at h
      have hreach := Nat.add_le_add h.1.reach_le h.2.1.reach_le
      refine ⟨hreach, ?_⟩
      cases hc : a.isConst with
      | true =>
          obtain ⟨c, rfl⟩ := exists_const_of_isConst hc
          exact term h.2.1
      | false =>
          have hbound : (Expr.mul a b).termBound = a.reach + b.reach + 1 := by
            cases a with
            | const c => simp [isConst] at hc
            | _ => rfl
          rw [hbound]
          exact (termBound_le _).trans (Nat.succ_le_succ hreach)
  | div a b =>
      simp only [operands, List.forall_mem_cons] at h
      have hreach : (Expr.div a.simplify b.simplify).reach ≤ (Expr.div a b).reach := by
        have := h.1.reach_le
        have := h.2.1.reach_le
        rw [reach_div, reach_div]
        omega
      exact ⟨hreach, Nat.succ_le_succ hreach⟩
  | pow a b =>
      simp only [operands, List.forall_mem_cons] at h
      have hreach : (Expr.pow a.simplify b.simplify).reach ≤ (Expr.pow a b).reach := by
        cases hb : b.naturalExponent? with
        | some n =>
            -- a natural number stays the same exponent
            obtain ⟨c, rfl⟩ := exists_const_of_naturalExponent? hb
            rw [simplify_const, reach_pow_of_natural hb, reach_pow_of_natural hb]
            exact Nat.mul_le_mul_left _ h.1.reach_le
        | none =>
            have hpow := reach_pow_le a.simplify b.simplify
            have := h.1.reach_le
            have := term h.2.1
            rw [reach_pow_of_none hb]
            omega
      exact ⟨hreach, Nat.succ_le_succ hreach⟩
  | apply g a =>
      simp only [operands, List.forall_mem_cons] at h
      have hreach := Nat.succ_le_succ h.1.reach_le
      exact ⟨hreach, Nat.succ_le_succ hreach⟩

/-- **Simplification does not increase the reach**, alone and as a term. -/
theorem nearer_simplify (hnamed : Named e) : Nearer e e.simplify := by
  refine simplify_induction (P := fun e => Nearer e e.simplify) (fun e hnamed h => ?_) hnamed
  obtain ⟨hoperands, hcalls⟩ := List.forall_mem_append.1 h
  obtain ⟨hreach, hbound⟩ := nearer_mapOperands hoperands
  have hmapped : Named (e.mapOperands simplify) := named_mapOperands hnamed fun a ha =>
    onlyNames_simplify (named_operands hnamed a ha)
  have hroot :
      Nearer (e.mapOperands simplify) ((e.mapOperands simplify).simplifyRoot simplify) := by
    generalize e.mapOperands simplify = e at hmapped hcalls
    cases e with
    | var x => exact ⟨le_rfl, le_rfl⟩
    | const c => exact ⟨le_rfl, le_rfl⟩
    | add a b => exact (simplifyAdd_rule a b).nearer hmapped hcalls rfl
    | sub a b => exact (simplifySub_rule a b).nearer hmapped hcalls rfl
    | mul a b =>
        have product (hbound : (Expr.mul a b).termBound = (Expr.mul a b).termReach) :=
          (simplifyMul_rule a b).nearer hmapped hcalls hbound
        cases hc : a.isConst with
        | true =>
            obtain ⟨c, rfl⟩ := exists_const_of_isConst hc
            cases hsum : b.isSum with
            | true => exact nearer_simplifyMul_const (onlyNames_mul.1 hmapped).2 hsum
            | false =>
                refine product ((termReach_of_not_isSum hsum).trans ?_)
                rw [termReach_of_not_isSum rfl, reach, reach, zero_add]
        | false =>
            refine product ?_
            cases a with
            | const c => simp [isConst] at hc
            | _ => rfl
    | div a b => exact (simplifyDiv_rule a b).nearer hmapped hcalls rfl
    | pow a b => exact (simplifyPow_rule a b).nearer hmapped hcalls rfl
    | apply g a => exact (simplifyApply_rule g a).nearer hmapped hcalls rfl
  rw [simplify_eq hnamed, simplifyStep]
  exact ⟨hroot.reach_le.trans hreach, hroot.termReach_le.trans hbound⟩

theorem reach_simplify_le (hnamed : Named e) : e.simplify.reach ≤ e.reach :=
  (nearer_simplify hnamed).reach_le

theorem termReach_simplify_le (hnamed : Named e) : e.simplify.termReach ≤ e.termReach :=
  (nearer_simplify hnamed).termReach_le.trans (termBound_le e)

end Exact

end Expr

end Reckoner
