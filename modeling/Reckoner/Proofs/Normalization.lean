/-
**Simplification leads to normal forms.**

Among expressions with natural powers, every operation on normal forms gives a normal form.  Sums
are collected, and the terms of normal forms are no bare sums.  In a product the exponents of an
equal base are added; both are one at least, so that the sum is no longer one and the base does not
become a factor by itself.  The exponents of a power of a power are multiplied.

The rebuilt trees are again such expressions, and simplified in as many passes as their weight
allows.

Main definitions:

* `Reckoner.Expr.NaturalPowers` — natural numbers as exponents, and division by numbers;
* `Reckoner.Expr.NormalPower` — a power among the factors of a product;
* `Reckoner.Expr.Normalizes` — what simplification needs of the simplification of rebuilt trees.

Main results:

* `Reckoner.Expr.normal_product` — **equal bases are merged to a normal form**;
* `Reckoner.Expr.normal_simplify` — **simplified expressions are in normal form**.
-/

import Reckoner.Proofs.NormalForms

set_option autoImplicit false

namespace Reckoner

namespace Expr

open Arithmetic (isZero isOne isNegative integer? one)

variable {κ : Type} [Number κ]

/-! ### Expressions with natural powers -/

/-- All exponents are natural numbers, and all divisors are numbers. -/
def NaturalPowers : Expr κ → Prop
  | .var _ | .const _ => True
  | .add a b | .sub a b | .mul a b => a.NaturalPowers ∧ b.NaturalPowers
  | .div a b => a.NaturalPowers ∧ b.isConst = true
  | .pow a b => a.NaturalPowers ∧ ∃ n : ℕ, b = ofInt n
  | .apply _ a => a.NaturalPowers

variable {a b e f : Expr κ} {c d : κ} {m : Monomial} {l : List (Monomial × κ)}
variable {es : List (Expr κ)} {n : ℕ} {again : Expr κ → Expr κ}

section Exact

variable [ExactNumber κ]

/-! ### Products -/

/-- A power among the factors of a product: its base is no power, and no product when its exponent
is one. -/
structure NormalPower (p : Expr κ × Expr κ) : Prop where
  normal : Normal p.1
  isConst : p.1.isConst = false
  isBase : IsBase p.1
  exponent : ∃ n : ℕ, 1 ≤ n ∧ p.2 = ofInt n ∧ (n = 1 → p.1.isProduct = false)

omit [ExactNumber κ] in
theorem NormalFactor.normalPower (h : NormalFactor f) : NormalPower f.baseAndExponent := by
  cases f with
  | pow a b =>
      obtain ⟨ha, hconst, hbase, n, hn, rfl⟩ := h.normal.of_pow
      exact ⟨ha, hconst, hbase, n, by omega, rfl, fun h => by omega⟩
  | _ => exact ⟨h.normal, h.isConst, rfl, 1, le_rfl, rfl, fun _ => h.isProduct⟩

/-- A power with a positive exponent is a factor with the same base. -/
theorem NormalPower.exists_factor {p : Expr κ × Expr κ} (h : NormalPower p) :
    ∃ f, factor? p = some f ∧ NormalFactor f ∧ f.baseAndExponent.1 = p.1 := by
  obtain ⟨base, exponent⟩ := p
  obtain ⟨n, hn, hexponent, hproduct⟩ := h.exponent
  dsimp only at hexponent
  subst hexponent
  have hzero : (ofInt n : Expr κ).isZeroConst = false := isZeroConst_ofInt (by omega)
  unfold factor?
  dsimp only
  rw [hzero, if_neg Bool.false_ne_true]
  by_cases hone : n = 1
  · rw [if_pos (isOneConst_ofInt.2 (by omega))]
    exact ⟨base, rfl, ⟨h.normal, h.isConst, hproduct hone⟩, by rw [h.isBase]⟩
  · rw [if_neg (by rw [isOneConst_ofInt]; omega)]
    exact ⟨_, rfl, ⟨.pow h.normal h.isConst h.isBase (by omega), rfl, rfl⟩, rfl⟩

/-- The powers of different bases among the factors of a product. -/
structure NormalPowers (ps : List (Expr κ × Expr κ)) : Prop where
  powers : ∀ p ∈ ps, NormalPower p
  different : (ps.map Prod.fst).Nodup

omit [ExactNumber κ] in
theorem mem_bases_mergePower {base exponent x : Expr κ} {ps : List (Expr κ × Expr κ)}
    (h : x ∈ (mergePower again base exponent ps).map Prod.fst) :
    x = base ∨ x ∈ ps.map Prod.fst := by
  induction ps with
  | nil => simpa [mergePower] using h
  | cons p ps ih =>
      obtain ⟨b, e⟩ := p
      simp only [mergePower] at h
      split at h
      · exact .inr h
      · rcases List.mem_cons.1 h with rfl | h
        · exact .inr List.mem_cons_self
        · exact (ih h).imp_right (List.mem_cons_of_mem _)

theorem NormalPowers.mergePower (hagain : FoldsSums again) {ps : List (Expr κ × Expr κ)}
    {p : Expr κ × Expr κ} (hps : NormalPowers ps) (hp : NormalPower p) :
    NormalPowers (mergePower again p.1 p.2 ps) := by
  induction ps with
  | nil => exact ⟨by simpa [Expr.mergePower] using hp, by simp [Expr.mergePower]⟩
  | cons q ps ih =>
      obtain ⟨hq, hrest⟩ := List.forall_mem_cons.1 hps.powers
      obtain ⟨hnew, hdifferent⟩ := List.nodup_cons.1 hps.different
      obtain ⟨b, exponent⟩ := q
      obtain ⟨base, exponent'⟩ := p
      simp only [Expr.mergePower]
      split
      · -- positive exponents add up to two at least
        obtain ⟨m, hm, hexponent, -⟩ := hq.exponent
        obtain ⟨n, hn, hexponent', -⟩ := hp.exponent
        dsimp only at hexponent hexponent'
        subst hexponent hexponent'
        have hsum : again (.add (ofInt m) (ofInt n)) = (ofInt (m + n : ℕ) : Expr κ) := by
          rw [ofInt, ofInt, hagain, ofInt_add_ofInt, Nat.cast_add]
          rfl
        refine ⟨List.forall_mem_cons.2 ⟨⟨hq.normal, hq.isConst, hq.isBase, m + n, by omega, hsum,
          fun h => by omega⟩, hrest⟩, hps.different⟩
      · rename_i hsame
        obtain ⟨hpowers, hbases⟩ := ih ⟨hrest, hdifferent⟩
        refine ⟨List.forall_mem_cons.2 ⟨hq, hpowers⟩, List.nodup_cons.2 ⟨fun hmem => ?_, hbases⟩⟩
        rcases mem_bases_mergePower hmem with rfl | hmem
        · exact hsame (same_iff_eq.2 rfl)
        · exact hnew hmem

theorem NormalPowers.mergeFactors (hagain : FoldsSums again) {ps : List (Expr κ × Expr κ)}
    (hps : NormalPowers ps) (hes : ∀ f ∈ es, f.isConst = false → NormalFactor f) :
    NormalPowers (mergeFactors again c ps es).2 := by
  induction es generalizing c ps with
  | nil => exact hps
  | cons f es ih =>
      obtain ⟨hf, hrest⟩ := List.forall_mem_cons.1 hes
      cases hc : f.isConst with
      | true =>
          obtain ⟨d, rfl⟩ := exists_const_of_isConst hc
          exact ih hps hrest
      | false =>
          rw [mergeFactors_cons hc]
          exact ih (hps.mergePower hagain (hf hc).normalPower) hrest

theorem NormalPowers.factors {ps : List (Expr κ × Expr κ)} (h : NormalPowers ps) :
    (∀ f ∈ ps.filterMap factor?, NormalFactor f) ∧
      (ps.filterMap factor?).map (fun f => f.baseAndExponent.1) = ps.map Prod.fst := by
  obtain ⟨hpowers, -⟩ := h
  induction ps with
  | nil => simp
  | cons p ps ih =>
      obtain ⟨hp, hps⟩ := List.forall_mem_cons.1 hpowers
      obtain ⟨hfactors, hbases⟩ := ih hps
      obtain ⟨f, hf, hfactor, hbase⟩ := hp.exists_factor
      rw [List.filterMap_cons, hf]
      exact ⟨List.forall_mem_cons.2 ⟨hfactor, hfactors⟩, by
        rw [List.map_cons, List.map_cons, hbase, hbases]⟩

/-- **Equal bases are merged to a normal form.** -/
theorem normal_product (hagain : FoldsSums again)
    (he : ∀ f ∈ e.factors, f.isConst = false → Normal f) : Normal (simplifyProduct again e) := by
  have hps : NormalPowers (mergeFactors again one [] e.factors).2 :=
    NormalPowers.mergeFactors hagain ⟨by simp, by simp⟩ fun f hf hc =>
      ⟨he f hf hc, hc, isProduct_of_mem_factors hf⟩
  obtain ⟨hfactors, hbases⟩ := hps.factors
  have hnodup := hps.different
  rw [← hbases] at hnodup
  unfold simplifyProduct
  dsimp only
  split
  · exact .const _
  · rename_i hzero
    split
    · exact normal_factors hfactors hnodup
    · rename_i hone
      refine normal_const_factors hfactors hnodup (Bool.eq_false_iff.2 hzero) fun h => ?_
      simp only [h, Bool.true_and, Bool.not_eq_true, Bool.not_eq_false', List.isEmpty_iff] at hone
      rw [hone, List.filterMap_nil]

/-! ### Natural powers of normal forms -/

omit [ExactNumber κ] in
theorem naturalPowers_family : Family (κ := κ) NaturalPowers (fun b => ∃ n : ℕ, b = ofInt n) where
  const _ := trivial
  add := Iff.rfl
  sub := Iff.rfl
  mul := Iff.rfl
  pow := Iff.rfl
  ofInt {n} hn := ⟨n.toNat, by rw [Int.toNat_of_nonneg hn.le]⟩

namespace Family

variable {Mem Exponent : Expr κ → Prop} (F : Family Mem Exponent)

include F

omit [ExactNumber κ] in
theorem writtenTerm (hm : ∀ p ∈ m, 0 < p.2 ∧ Mem (ofText κ p.1)) (c : κ) :
    Mem (writtenTerm m c) := by
  have powers : ∀ f ∈ m.map writtenPower, Mem f := by
    intro f hf
    obtain ⟨p, hp, rfl⟩ := List.mem_map.1 hf
    obtain ⟨hpos, hatom⟩ := hm p hp
    unfold writtenPower
    split
    · exact hatom
    · exact F.pow.2 ⟨hatom, F.ofInt hpos⟩
  unfold Expr.writtenTerm
  split
  · exact F.const c
  · refine F.product ?_
    split
    · exact powers
    · exact List.forall_mem_cons.2 ⟨F.const c, powers⟩

omit [ExactNumber κ] in
theorem writtenSum (hl : ∀ t ∈ l, ∀ p ∈ t.1, 0 < p.2 ∧ Mem (ofText κ p.1)) :
    Mem (writtenSum l) := by
  induction l using List.reverseRecOn with
  | nil => exact F.const _
  | append_singleton l t ih =>
      obtain ⟨hl, ht⟩ := List.forall_mem_append.1 hl
      have hterm := F.writtenTerm (ht t (List.mem_singleton_self t))
      by_cases hne : l = []
      · subst hne
        exact hterm t.2
      · rw [writtenSum_concat hne]
        unfold appendWritten
        split
        · exact F.sub.2 ⟨ih hl, hterm _⟩
        · exact F.add.2 ⟨ih hl, hterm _⟩

end Family

omit [ExactNumber κ] in
theorem Normal.naturalPowers (h : Normal e) : NaturalPowers e := by
  induction h with
  | var x => exact trivial
  | const c => exact trivial
  | sum harranged _ _ _ _ ih =>
      exact naturalPowers_family.writtenSum fun t ht p hp =>
        ⟨(harranged.proper t ht).positive p hp, ih t ht p hp⟩
  | mul _ _ _ _ _ _ _ iha ihb => exact ⟨iha, ihb⟩
  | div _ _ iha => exact ⟨iha, rfl⟩
  | pow _ _ _ _ iha => exact ⟨iha, _, rfl⟩
  | apply _ _ iha => exact iha

/-! ### One operation -/

/-- The simplification of rebuilt trees, for normal forms. -/
structure Normalizes (again : Expr κ → Expr κ) (n : ℕ) : Prop where
  /-- Lighter trees do not grow. -/
  simplifies : Simplifies again n
  /-- Products of numbers are folded. -/
  foldsProducts : ∀ c d, again (.mul (.const c) (.const d)) = .const (c * d)
  /-- Lighter trees become normal forms. -/
  normal : ∀ e, Named e → NaturalPowers e → e.weight < n → Normal (again e)

theorem normal_add (ha : Normal a) (hb : Normal b) (hna : Named a) (hnb : Named b) :
    Normal (simplifyAdd a b) := by
  have hterms : NormalTerms ((Expr.add a b).terms one) :=
    (normalTerms_terms ha hna one).append (normalTerms_terms hb hnb one)
  unfold simplifyAdd
  split
  · exact .const _
  · split
    · exact hb
    · split
      · exact ha
      · exact hterms.normal_collected (two_le_length_terms rfl one)

theorem normal_sub (hagain : Normalizes again n) (ha : Normal a) (hb : Normal b) (hna : Named a)
    (hnb : Named b) (hn : (Expr.sub a b).weight ≤ n) : Normal (simplifySub again a b) := by
  have hterms : NormalTerms ((Expr.sub a b).terms one) :=
    (normalTerms_terms ha hna one).append (normalTerms_terms hb hnb (-one))
  have hlight : b.negated.weight < n := by
    have hweight : (Expr.sub a b).weight = a.weight + b.weight + 1 := rfl
    have hnegated : b.negated.weight = b.weight := by simp [negated, ofInt, weight]
    omega
  unfold simplifySub
  split
  · exact .const _
  · split
    · exact ha
    · split
      · exact .const _
      · split
        · exact hagain.normal _ (onlyNames_negated.2 hnb) ⟨trivial, hb.naturalPowers⟩ hlight
        · exact hterms.normal_collected (two_le_length_terms rfl one)

theorem normal_mul (hagain : FoldsSums again) (ha : Normal a) (hb : Normal b) (hnb : Named b) :
    Normal (simplifyMul again a b) := by
  unfold simplifyMul
  split
  · exact .const _
  · split
    · exact .const _
    · split
      · exact hb
      · split
        · exact ha
        · split
          · -- a number is multiplied out over a sum
            rename_i hboth
            obtain ⟨hconst, hsum⟩ := Bool.and_eq_true_iff.1 hboth
            obtain ⟨c, rfl⟩ := exists_const_of_isConst hconst
            have hterms : (Expr.mul (.const c) b).terms one = b.terms (one * c) := by
              rw [terms, if_pos hsum]
            refine NormalTerms.normal_collected ?_ ?_
            · rw [hterms]
              exact normalTerms_terms hb hnb _
            · rw [hterms]
              exact two_le_length_terms hsum _
          · refine normal_product hagain fun f hf _ => ?_
            rcases List.mem_append.1 hf with hf | hf
            · exact hereditary_normal.factors ha f hf
            · exact hereditary_normal.factors hb f hf

omit [ExactNumber κ] in
/-- A settled quotient is left alone. -/
theorem Settled.of_div (h : Settled (.div a b)) (again : Expr κ → Expr κ) :
    simplifyDiv again a b = .div a b := by
  generalize he : Expr.div a b = e at h
  cases h with
  | div _ _ hkept =>
      obtain ⟨rfl, rfl⟩ := Expr.div.inj he
      exact hkept again
  | sum _ hlength _ =>
      have := isSum_writtenSum hlength
      rw [← he] at this
      simp [isSum] at this
  | _ => simp at he

theorem normal_div (hagain : Normalizes again n) (ha : Normal a) (hna : Named a)
    (hn : (Expr.div a (.const d)).weight ≤ n) : Normal (simplifyDiv again a (.const d)) := by
  have hsettled := (simplified_div hagain.simplifies ha.settled (.const d) hna (onlyNames_const d)
    hn).settled
  have hrule : Rule again (.div a (.const d)) (simplifyDiv again a (.const d)) :=
    simplifyDiv_rule a (.const d)
  have hweight : (Expr.div a (.const d)).weight = a.weight + 3 := rfl
  generalize simplifyDiv again a (.const d) = u at hrule hsettled
  cases hrule with
  | keep => exact .div ha hsettled.of_div
  | collect h => simp [collected?, terms] at h
  | foldDiv _ => exact .const _
  | zeroDiv _ => exact .const _
  | divOne _ => exact ha
  | divSelf _ => exact .const _
  | @scale c _ a' _ =>
      have hlight : (Expr.mul (.const (c / d)) a').weight = (Expr.mul (.const c) a').weight := rfl
      exact hagain.normal _ (onlyNames_mul.2 ⟨onlyNames_const _, (onlyNames_mul.1 hna).2⟩)
        ⟨trivial, ha.of_mul.2.1.naturalPowers⟩ (by omega)
  | divConst _ =>
      have hlight : (Expr.mul (.const (one / d)) a).weight = a.weight := Nat.zero_add _
      exact hagain.normal _ (onlyNames_mul.2 ⟨onlyNames_const _, hna⟩)
        ⟨trivial, ha.naturalPowers⟩ (by omega)
  | cancel hsame hconst =>
      rw [same_iff_eq.1 hsame] at hconst
      simp [baseAndExponent, isConst] at hconst

theorem normal_pow (hagain : Normalizes again n) (ha : Normal a) (hna : Named a) {k : ℕ}
    (hn : (Expr.pow a (ofInt k)).weight ≤ n) : Normal (simplifyPow again a (ofInt k)) := by
  have hweight : (Expr.pow a (ofInt k)).weight = a.weight + 1 := rfl
  cases hc : a.isConst with
  | true =>
      obtain ⟨c, rfl⟩ := exists_const_of_isConst hc
      exact .const _
  | false =>
      have hkept (hbase : IsBase a) (hzero : ¬(ofInt k : Expr κ).isZeroConst = true)
          (hone : ¬(ofInt k : Expr κ).isOneConst = true) : Normal (.pow a (ofInt k)) := by
        refine .pow ha hc hbase ?_
        have hk0 : k ≠ 0 := by
          rintro rfl
          exact hzero (isZeroConst_iff.2 rfl)
        have hk1 : k ≠ 1 := by
          rintro rfl
          exact hone (isOneConst_ofInt.2 rfl)
        omega
      unfold simplifyPow
      split
      · exact .const _
      · split
        · exact .const _
        · rename_i hzero
          split
          · exact ha
          · rename_i hone
            split
            · exact .const _
            · split
              · -- the exponents of a power of a power are multiplied
                rename_i base m c heq _ _
                obtain ⟨hbase, -, -, j, -, rfl⟩ := ha.of_pow
                obtain rfl := Expr.const.inj heq
                have hproduct : again (.mul (ofInt j) (.const (Arithmetic.ofInt (k : ℤ)))) =
                    ofInt (j * k : ℕ) := by
                  rw [ofInt, hagain.foldsProducts, ofInt_mul_ofInt, Nat.cast_mul]
                  rfl
                have hpow : (Expr.pow base (ofInt j)).weight = base.weight + 1 := rfl
                have hlight : (Expr.pow base (ofInt (j * k : ℕ))).weight = base.weight + 1 := rfl
                rw [integer?_ofInt, if_pos (by simp), hproduct]
                exact hagain.normal _
                  (onlyNames_pow.2 ⟨(onlyNames_pow.1 hna).1, onlyNames_ofInt _⟩)
                  ⟨hbase.naturalPowers, _, rfl⟩ (by omega)
              · rename_i base _ _ _ _ hpow
                refine hkept ?_ hzero hone
                cases base with
                | pow x y => exact absurd rfl (hpow x y _ rfl)
                | _ => rfl

omit [ExactNumber κ] in
theorem normal_apply (g : Elementary) (ha : Normal a) : Normal (simplifyApply g a) := by
  by_cases h : simplifyApply g a = .apply g a
  · rw [h]
    exact .apply ha h
  · unfold simplifyApply at h ⊢
    split at h
    · split at h
      · exact .const _
      · exact absurd rfl h
    · exact absurd rfl h

/-! ### Whole expressions -/

/-- One pass over an expression with natural powers leads to a normal form. -/
theorem normal_simplifyWith (hagain : Normalizes again n) (hnamed : Named e)
    (hpowers : NaturalPowers e) (hn : e.weight ≤ n) : Normal (e.simplifyWith again) := by
  have operand {a : Expr κ} (hna : Named a) (ha : a.weight ≤ n) :
      Simplified a (a.simplifyWith again) :=
    simplified_simplifyWith hagain.simplifies hna ha
  induction e with
  | var x => exact .var x
  | const c => exact .const c
  | add a b iha ihb =>
      have hweight : (Expr.add a b).weight = a.weight + b.weight + 1 := rfl
      obtain ⟨hna, hnb⟩ := onlyNames_add.1 hnamed
      exact normal_add (iha hna hpowers.1 (by omega)) (ihb hnb hpowers.2 (by omega))
        (operand hna (by omega)).named (operand hnb (by omega)).named
  | sub a b iha ihb =>
      have hweight : (Expr.sub a b).weight = a.weight + b.weight + 1 := rfl
      obtain ⟨hna, hnb⟩ := onlyNames_sub.1 hnamed
      obtain ⟨-, na, wa⟩ := operand hna (by omega)
      obtain ⟨-, nb, wb⟩ := operand hnb (by omega)
      exact normal_sub hagain (iha hna hpowers.1 (by omega)) (ihb hnb hpowers.2 (by omega)) na nb
        (by simp only [weight]; omega)
  | mul a b iha ihb =>
      have hweight : (Expr.mul a b).weight = a.weight + b.weight := rfl
      obtain ⟨hna, hnb⟩ := onlyNames_mul.1 hnamed
      exact normal_mul hagain.simplifies.folds (iha hna hpowers.1 (by omega))
        (ihb hnb hpowers.2 (by omega)) (operand hnb (by omega)).named
  | div a b iha _ =>
      obtain ⟨d, rfl⟩ := exists_const_of_isConst hpowers.2
      have hweight : (Expr.div a (.const d)).weight = a.weight + 3 := rfl
      have hna := (onlyNames_div.1 hnamed).1
      obtain ⟨-, na, wa⟩ := operand hna (by omega)
      exact normal_div hagain (iha hna hpowers.1 (by omega)) na (by simp only [weight]; omega)
  | pow a b iha _ =>
      obtain ⟨hpowers, k, rfl⟩ := hpowers
      have hweight : (Expr.pow a (ofInt k)).weight = a.weight + 1 := rfl
      have hna := (onlyNames_pow.1 hnamed).1
      obtain ⟨-, na, wa⟩ := operand hna (by omega)
      refine normal_pow hagain (iha hna hpowers (by omega)) na ?_
      have hsimplified : (Expr.pow (a.simplifyWith again) (ofInt k)).weight =
        (a.simplifyWith again).weight + 1 := rfl
      omega
  | apply g a ih =>
      have hweight : (Expr.apply g a).weight = a.weight + 2 := rfl
      exact normal_apply g (ih (onlyNames_apply.1 hnamed) hpowers (by omega))

theorem normal_simplifyWithin (n : ℕ) : ∀ e : Expr κ, Named e → NaturalPowers e → e.weight ≤ n →
    Normal (simplifyWithin n e) := by
  induction n with
  | zero =>
      intro e _ _ hweight
      obtain ⟨c, hc⟩ := simplifyWith_of_weight_eq_zero (Nat.le_zero.1 hweight)
      rw [simplifyWithin, hc]
      exact .const c
  | succ n ih =>
      intro e hnamed hpowers hweight
      have hagain : Normalizes (κ := κ) (simplifyWithin n) (n + 1) := by
        refine ⟨⟨foldsSums_simplifyWithin n, fun a ha hlt => ?_⟩, fun c d => ?_,
          fun a ha hpowers hlt => ih a ha hpowers (Nat.lt_succ_iff.1 hlt)⟩
        · exact simplified_simplifyWithin n a ha (Nat.lt_succ_iff.1 hlt)
        · cases n <;> rfl
      exact normal_simplifyWith hagain hnamed hpowers hweight

/-- **Simplified expressions are in normal form**, as long as exponents are natural numbers and
divisors are numbers. -/
theorem normal_simplify (hnamed : Named e) (hpowers : NaturalPowers e) : Normal e.simplify :=
  normal_simplifyWithin e.weight e hnamed hpowers le_rfl

end Exact

end Expr

end Reckoner
