/-
**Expansion decides polynomial identity.**

An expression of a polynomial is expanded to a sum of products of numbers and powers of variables.
Each product is simplified to a single monomial with a coefficient, like monomials are collected,
and what is left is zero just when the polynomial is.

Powers of sums are multiplied out factor by factor, with the like terms collected after every
factor.  A collected sum is split into its terms once more, and comes apart into the terms it was
put together from: the powers in it are powers of variables, and none of them is multiplied out.
So it does not matter how deep such splitting may go.

Main definitions:

* `Reckoner.Expr.IsPolynomial` — the expressions of polynomials;
* `Reckoner.Expr.FoldsSums` — what simplification needs of the simplification of rebuilt trees;
* `Reckoner.Expr.TermsOf` — a list of terms of a polynomial.

Main results:

* `Reckoner.Expr.IsTerm.simplifyWith` — **a product is simplified to a single term**;
* `Reckoner.Expr.TermsOf.collect` — terms are collected to a reduced sum;
* `Reckoner.Expr.IsPolynomial.expandedTermsWith` — the terms of an expression add up to its
  polynomial;
* `Reckoner.Expr.expand_eq_zero_iff` — **an expression is expanded to zero exactly when its
  polynomial is zero**.
-/

import Reckoner.Proofs.ExpandValue
import Reckoner.Proofs.Monomials
import Reckoner.Proofs.Ratio

set_option autoImplicit false

namespace Reckoner.Expr

open Arithmetic (isZero isOne integer? one)
open MvPolynomial (C X)

variable {κ : Type} [Number κ]
variable {least d i j n : ℕ} {a b e : Expr κ} {c : κ} {x : String}
variable {again : Expr κ → Expr κ}

/-! ### Single terms -/

/-- A term that is the number zero if its polynomial is zero. -/
structure ReducedTerm (d : ℕ) (e : Expr κ) : Prop where
  /-- It is a term. -/
  term : IsTerm 1 d e
  /-- It is zero if its polynomial is. -/
  eq_zero : e.toPolynomial = 0 → e = ofInt 0

theorem ReducedTerm.reduced (h : ReducedTerm d e) : Reduced d e := ⟨.term h.term, h.eq_zero⟩

/-- Trees that are rebuilt from two numbers are simplified to their sum. -/
def FoldsSums (again : Expr κ → Expr κ) : Prop :=
  ∀ c d, again (.add (.const c) (.const d)) = .const (c + d)

theorem foldsSums_simplifyWithin (n : ℕ) : FoldsSums (simplifyWithin (κ := κ) n) := by
  intro c d
  cases n <;> rfl

/-- An expression without weight is a product of numbers, and no tree is rebuilt in it. -/
theorem simplifyWith_of_weight_eq_zero (h : e.weight = 0) :
    ∃ c, ∀ again, e.simplifyWith again = .const c := by
  induction e with
  | const c => exact ⟨c, fun _ => rfl⟩
  | mul a b iha ihb =>
      obtain ⟨ha, hb⟩ := Nat.add_eq_zero_iff.1 h
      obtain ⟨c, hc⟩ := iha ha
      obtain ⟨d, hd⟩ := ihb hb
      exact ⟨c * d, fun again => by rw [simplifyWith, hc, hd, simplifyMul]⟩
  | _ => simp [weight] at h

/-- Simplification is one pass in which sums of numbers are folded. -/
theorem exists_simplify_eq (e : Expr κ) :
    ∃ again, FoldsSums again ∧ e.simplify = e.simplifyWith again := by
  unfold simplify
  cases h : e.weight with
  | zero =>
      obtain ⟨c, hc⟩ := simplifyWith_of_weight_eq_zero h
      exact ⟨_, foldsSums_simplifyWithin 0, by rw [simplifyWithin, hc, hc]⟩
  | succ n => exact ⟨_, foldsSums_simplifyWithin n, rfl⟩

variable [ExactNumber κ]

theorem isZeroConst_iff : e.isZeroConst = true ↔ e = ofInt 0 := by
  cases e with
  | const c =>
      rw [isZeroConst, isZero_iff_value, ofInt, const.injEq,
        ← (ExactNumber.value_injective (κ := κ)).eq_iff, ExactNumber.value_ofInt, Int.cast_zero]
  | _ => simp [isZeroConst, ofInt]

theorem isOneConst_iff : e.isOneConst = true ↔ e = ofInt 1 := by
  cases e with
  | const c =>
      rw [isOneConst, isOne_iff_value, ofInt, const.injEq,
        ← (ExactNumber.value_injective (κ := κ)).eq_iff, ExactNumber.value_ofInt, Int.cast_one]
  | _ => simp [isOneConst, ofInt]

theorem reducedTerm_const (c : κ) : ReducedTerm d (.const c) := by
  refine ⟨.const c, fun h => isZeroConst_iff.1 ?_⟩
  rw [isZeroConst, isZero_iff_value]
  simpa using h

omit [ExactNumber κ] in
theorem ReducedTerm.of_ne_zero (h : IsTerm 1 d e) (hne : e.toPolynomial ≠ 0) : ReducedTerm d e :=
  ⟨h, fun hzero => absurd hzero hne⟩

/-! ### Equal bases -/

/-- A list of powers of variables with positive exponents, their degrees together bounded. -/
inductive VariablePowers : ℕ → List (Expr κ × Expr κ) → Prop
  | nil {d : ℕ} : VariablePowers d []
  | cons {n i d : ℕ} {c : κ} {ps : List (Expr κ × Expr κ)} (x : String) : Number.value c = n →
      1 ≤ n → VariablePowers i ps → n + i ≤ d → VariablePowers d ((.var x, .const c) :: ps)

/-- The polynomial of a list of powers. -/
noncomputable def powersPolynomial (ps : List (Expr κ × Expr κ)) : MvPolynomial String ℚ :=
  (ps.map fun p => toPolynomial (.pow p.1 p.2)).prod

omit [ExactNumber κ] in
@[simp] theorem powersPolynomial_nil : powersPolynomial ([] : List (Expr κ × Expr κ)) = 1 := rfl

omit [ExactNumber κ] in
theorem powersPolynomial_cons {ps : List (Expr κ × Expr κ)} (x : String)
    (hc : Number.value c = n) :
    powersPolynomial ((.var x, .const c) :: ps) = X x ^ n * powersPolynomial ps := by
  rw [powersPolynomial, List.map_cons, List.prod_cons, toPolynomial_pow _ hc]
  rfl

namespace VariablePowers

variable {ps : List (Expr κ × Expr κ)}

omit [ExactNumber κ] in
theorem mono (h : VariablePowers i ps) (hd : i ≤ d) : VariablePowers d ps := by
  cases h with
  | nil => exact .nil
  | cons x hc hn hps hle => exact .cons x hc hn hps (hle.trans hd)

/-- The exponents of an equal base are added. -/
theorem mergePower (hagain : FoldsSums again) (h : VariablePowers i ps) (x : String)
    (hc : Number.value c = n) (hn : 1 ≤ n) :
    VariablePowers (i + n) (mergePower again (.var x) (.const c) ps) ∧
      powersPolynomial (Expr.mergePower again (.var x) (.const c) ps) =
        powersPolynomial ps * X x ^ n := by
  induction h with
  | @nil i =>
      rw [Expr.mergePower, powersPolynomial_cons x hc, mul_comm]
      exact ⟨.cons x hc hn (.nil (d := i)) (Nat.add_comm n i).le, rfl⟩
  | @cons k i d b ps y hb hk hps hle ih =>
      rw [Expr.mergePower]
      split
      · rename_i hsame
        have hxy : y = x := by simpa [same] using hsame
        have hsum : Number.value (b + c) = (k + n : ℕ) := by
          rw [ExactNumber.value_add, hb, hc, Nat.cast_add]
        rw [hagain, powersPolynomial_cons y hsum, powersPolynomial_cons y hb, hxy, pow_add]
        exact ⟨.cons x hsum (by omega) hps (by omega), by ring⟩
      · rw [powersPolynomial_cons y hb, powersPolynomial_cons y hb, ih.2, mul_assoc]
        exact ⟨.cons y hb hk ih.1 (by omega), rfl⟩

/-- **The factors of a term are merged into powers of variables.** -/
theorem mergeFactors (hagain : FoldsSums again) (h : IsTerm 1 d e) (hps : VariablePowers i ps)
    (rest : List (Expr κ)) :
    ∃ c' ps', mergeFactors again c ps (e.factors ++ rest) =
        Expr.mergeFactors again c' ps' rest ∧ VariablePowers (i + d) ps' ∧
      C (Number.value c') * powersPolynomial ps' =
        C (Number.value c) * powersPolynomial ps * e.toPolynomial := by
  induction h generalizing c i ps rest with
  | const b =>
      refine ⟨c * b, ps, rfl, hps.mono (Nat.le_add_right _ _), ?_⟩
      rw [ExactNumber.value_mul, C.map_mul, toPolynomial_const]
      ring
  | var x h1 =>
      have hone : Number.value (Arithmetic.ofInt 1 : κ) = (1 : ℕ) := by
        rw [ExactNumber.value_ofInt, Int.cast_one, Nat.cast_one]
      obtain ⟨hpowers, hp⟩ := mergePower hagain hps x hone le_rfl
      refine ⟨c, _, rfl, hpowers.mono (by omega), ?_⟩
      rw [toPolynomial_var, mul_assoc, ← pow_one (X x), ← hp]
      rfl
  | @power d n b x hb hn hle =>
      obtain ⟨hpowers, hp⟩ := mergePower hagain hps x hb hn
      refine ⟨c, _, rfl, hpowers.mono (by omega), ?_⟩
      rw [toPolynomial_pow _ hb, toPolynomial_var, mul_assoc, ← hp]
  | constPower b hc h => exact absurd h one_ne_zero
  | mul _ _ hle iha ihb =>
      obtain ⟨c₁, ps₁, h₁, hps₁, hp₁⟩ := iha hps (Expr.factors _ ++ rest)
      obtain ⟨c₂, ps₂, h₂, hps₂, hp₂⟩ := ihb hps₁ rest
      refine ⟨c₂, ps₂, ?_, hps₂.mono (by omega), ?_⟩
      · rw [factors, List.append_assoc, h₁, h₂]
      · rw [hp₂, hp₁, toPolynomial_mul, mul_assoc]

/-- The powers are the factors of a term. -/
theorem factors (h : VariablePowers d ps) : TermFactors d (ps.filterMap factor?) ∧
    ((ps.filterMap factor?).map toPolynomial).prod = powersPolynomial ps := by
  induction h with
  | nil => exact ⟨.nil, rfl⟩
  | @cons n i d c ps x hc hn hps hle ih =>
      obtain ⟨hfactors, hp⟩ := ih
      have hfactor : ∃ f, factor? (.var x, .const c) = some f ∧ IsTerm 1 n f ∧
          f.toPolynomial = X x ^ n := by
        have hzero : (const c).isZeroConst = false := by
          rw [isZeroConst, Bool.eq_false_iff, Ne, isZero_iff_value, hc]
          exact_mod_cast Nat.one_le_iff_ne_zero.1 hn
        unfold factor?
        rw [hzero, if_neg Bool.false_ne_true]
        split
        · -- the first power of a variable is the variable
          rename_i hone
          rw [isOneConst, isOne_iff_value, hc, Nat.cast_eq_one] at hone
          exact ⟨_, rfl, .var x hn, by simp [hone]⟩
        · exact ⟨_, rfl, .power x hc hn le_rfl, toPolynomial_pow _ hc⟩
      obtain ⟨f, hf, hterm, hpoly⟩ := hfactor
      rw [List.filterMap_cons_some hf, List.map_cons, List.prod_cons, hpoly, hp,
        powersPolynomial_cons x hc]
      exact ⟨.cons hterm hfactors hle, rfl⟩

end VariablePowers

/-- **A product of terms is simplified to a single term.** -/
theorem IsTerm.simplifyProduct (hagain : FoldsSums again) (h : IsTerm 1 d e) :
    IsTerm 1 d (simplifyProduct again e) ∧
      (Expr.simplifyProduct again e).toPolynomial = e.toPolynomial := by
  obtain ⟨c, ps, hmerge, hps, hp⟩ :=
    VariablePowers.mergeFactors (c := one) hagain h (.nil (d := 0)) []
  obtain ⟨hfactors, hpowers⟩ := hps.factors
  rw [List.append_nil, Expr.mergeFactors] at hmerge
  rw [Nat.zero_add] at hfactors
  rw [powersPolynomial_nil, one, ExactNumber.value_ofInt, Int.cast_one, C.map_one, one_mul,
    one_mul] at hp
  unfold Expr.simplifyProduct
  rw [hmerge]
  dsimp only
  split
  · rename_i hzero
    rw [isZero_iff_value] at hzero
    rw [hzero, C.map_zero, zero_mul] at hp
    exact ⟨.const _, by rw [← hp, toPolynomial_ofInt, Int.cast_zero, C.map_zero]⟩
  · split
    · rename_i hone
      rw [Bool.and_eq_true, isOne_iff_value] at hone
      obtain ⟨hterm, hpoly⟩ := hfactors.product
      exact ⟨hterm, by rw [hpoly, hpowers, ← hp, hone.1, C.map_one, one_mul]⟩
    · obtain ⟨hterm, hpoly⟩ := (hfactors.cons (.const (d := 0) c) (Nat.zero_add _).le).product
      refine ⟨hterm, ?_⟩
      rw [hpoly, List.map_cons, List.prod_cons, hpowers, ← hp]
      rfl

/-! ### Simplified terms -/

omit [ExactNumber κ] in
theorem ReducedTerm.mono (h : ReducedTerm i e) (hd : i ≤ d) : ReducedTerm d e :=
  ⟨h.term.mono hd, h.eq_zero⟩

theorem ReducedTerm.simplifyMul (hagain : FoldsSums again) (ha : ReducedTerm i a)
    (hb : ReducedTerm j b) :
    ReducedTerm (i + j) (simplifyMul again a b) ∧
      (Expr.simplifyMul again a b).toPolynomial = a.toPolynomial * b.toPolynomial := by
  unfold Expr.simplifyMul
  split
  · exact ⟨reducedTerm_const _, by simp [ExactNumber.value_mul]⟩
  · split
    · rename_i hzero
      rw [Bool.or_eq_true, isZeroConst_iff, isZeroConst_iff] at hzero
      refine ⟨reducedTerm_const _, ?_⟩
      rcases hzero with rfl | rfl <;> simp
    · rename_i hzero
      rw [Bool.or_eq_true, isZeroConst_iff, isZeroConst_iff, not_or] at hzero
      split
      · rename_i hone
        rw [isOneConst_iff.1 hone]
        exact ⟨hb.mono (Nat.le_add_left _ _), by simp⟩
      · split
        · rename_i hone
          rw [isOneConst_iff.1 hone]
          exact ⟨ha.mono (Nat.le_add_right _ _), by simp⟩
        · rw [hb.term.isSum, Bool.and_false, if_neg Bool.false_ne_true]
          obtain ⟨hterm, hp⟩ := (ha.term.mul hb.term le_rfl).simplifyProduct hagain
          refine ⟨.of_ne_zero hterm ?_, hp⟩
          -- neither factor is zero, so the product is not
          rw [hp, toPolynomial_mul]
          exact mul_ne_zero (mt ha.eq_zero hzero.1) (mt hb.eq_zero hzero.2)

/-- A power of a variable is the number one, the variable, or stays. -/
theorem simplifyPow_var (again : Expr κ → Expr κ) (x : String) (hc : Number.value c = n)
    (hle : n ≤ d) : ReducedTerm d (simplifyPow again (.var x) (.const c)) ∧
      (simplifyPow again (.var x) (.const c)).toPolynomial = X x ^ n := by
  have hne : (X x : MvPolynomial String ℚ) ≠ 0 := MvPolynomial.X_ne_zero x
  have hvar : (var x : Expr κ).isOneConst = false := rfl
  rw [simplifyPow.eq_def]
  dsimp only
  split
  · rename_i hzero
    rw [isZeroConst, isZero_iff_value, hc, Nat.cast_eq_zero] at hzero
    exact ⟨reducedTerm_const _, by simp [hzero]⟩
  · rename_i hzero
    rw [isZeroConst, isZero_iff_value, hc, Nat.cast_eq_zero] at hzero
    rw [hvar, if_neg Bool.false_ne_true]
    split
    · rename_i hone
      rw [isOneConst, isOne_iff_value, hc, Nat.cast_eq_one] at hone
      exact ⟨.of_ne_zero (.var x (hone ▸ hle)) hne, by simp [hone]⟩
    · have hpoly := toPolynomial_pow (.var x) hc
      refine ⟨.of_ne_zero (.power x hc (by omega) hle) ?_, hpoly⟩
      rw [hpoly]
      exact pow_ne_zero n hne

/-- **A product is simplified to a single term.** -/
theorem IsTerm.simplifyWith (hagain : FoldsSums again) (h : IsTerm 0 d e) :
    ReducedTerm d (e.simplifyWith again) ∧
      (e.simplifyWith again).toPolynomial = e.toPolynomial := by
  induction h with
  | const c => exact ⟨reducedTerm_const c, rfl⟩
  | var x h1 => exact ⟨.of_ne_zero (.var x h1) (MvPolynomial.X_ne_zero x), rfl⟩
  | power x hc _ hle =>
      obtain ⟨hterm, hp⟩ := simplifyPow_var again x hc hle
      exact ⟨hterm, hp.trans (toPolynomial_pow (.var x) hc).symm⟩
  | @constPower d n c b hc _ =>
      refine ⟨reducedTerm_const _, ?_⟩
      rw [toPolynomial_pow _ hc]
      have := ExactNumber.value_pow b c n (by simpa using hc) (.inr (Int.natCast_nonneg n))
      simp [Expr.simplifyWith, simplifyPow, this]
  | mul _ _ hle iha ihb =>
      obtain ⟨hterm, hp⟩ := iha.1.simplifyMul hagain ihb.1
      refine ⟨hterm.mono hle, ?_⟩
      rw [Expr.simplifyWith, hp, iha.2, ihb.2, toPolynomial_mul]

/-! ### Sums of terms -/

theorem Reduced.simplifyAdd (ha : Reduced d a) (hb : Reduced d b) (hd : d < degreeBound) :
    Reduced d (simplifyAdd a b) ∧
      (Expr.simplifyAdd a b).toPolynomial = a.toPolynomial + b.toPolynomial := by
  unfold Expr.simplifyAdd
  split
  · exact ⟨(reducedTerm_const _).reduced, by simp [ExactNumber.value_add]⟩
  · split
    · rename_i hzero
      rw [isZeroConst_iff.1 hzero]
      exact ⟨hb, by simp⟩
    · split
      · rename_i hzero
        rw [isZeroConst_iff.1 hzero]
        exact ⟨ha, by simp⟩
      · obtain ⟨e, he, hreduced, hp⟩ := ha.flat.collected? hb.flat hd
        rw [he, Option.getD_some]
        exact ⟨hreduced, hp⟩

/-- A list of terms of a polynomial. -/
structure TermsOf (d : ℕ) (es : List (Expr κ)) (P : MvPolynomial String ℚ) : Prop where
  /-- There are terms. -/
  ne_nil : es ≠ []
  /-- All of them are products of numbers, variables and their powers. -/
  terms : ∀ e ∈ es, IsTerm 0 d e
  /-- They add up to the polynomial. -/
  sum_eq : (es.map toPolynomial).sum = P

namespace TermsOf

variable {es fs : List (Expr κ)} {P Q : MvPolynomial String ℚ}

omit [ExactNumber κ] in
theorem single (h : IsTerm 0 d e) : TermsOf d [e] e.toPolynomial :=
  ⟨by simp, by simpa using h, by simp⟩

omit [ExactNumber κ] in
theorem mono (h : TermsOf i es P) (hd : i ≤ d) : TermsOf d es P :=
  ⟨h.ne_nil, fun e he => (h.terms e he).mono hd, h.sum_eq⟩

omit [ExactNumber κ] in
theorem append (h : TermsOf d es P) (h' : TermsOf d fs Q) : TermsOf d (es ++ fs) (P + Q) := by
  refine ⟨by simp [h.ne_nil], List.forall_mem_append.2 ⟨h.terms, h'.terms⟩, ?_⟩
  rw [List.map_append, List.sum_append, h.sum_eq, h'.sum_eq]

omit [ExactNumber κ] in
/-- Products of terms are the terms of the product. -/
theorem crossProduct (h : TermsOf i es P) (h' : TermsOf j fs Q) :
    TermsOf (i + j) (crossProduct es fs) (P * Q) := by
  obtain ⟨hne, hes, rfl⟩ := h
  refine ⟨?_, fun t ht => ?_, ?_⟩
  · obtain ⟨e, he⟩ := List.exists_mem_of_ne_nil es hne
    obtain ⟨f, hf⟩ := List.exists_mem_of_ne_nil fs h'.ne_nil
    exact List.ne_nil_of_mem (List.mem_flatMap.2 ⟨e, he, List.mem_map_of_mem hf⟩)
  · obtain ⟨e, he, ht⟩ := List.mem_flatMap.1 ht
    obtain ⟨f, hf, rfl⟩ := List.mem_map.1 ht
    exact .mul (hes e he) (h'.terms f hf) le_rfl
  · clear hne hes
    induction es with
    | nil => simp [Expr.crossProduct]
    | cons e es ih =>
        have hfirst : ((fs.map (Expr.mul e)).map toPolynomial).sum = e.toPolynomial * Q := by
          rw [List.map_map, ← h'.sum_eq]
          exact List.sum_map_mul_left ..
        rw [Expr.crossProduct, List.flatMap_cons, List.map_append, List.sum_append, hfirst,
          List.map_cons, List.sum_cons, add_mul, ← ih]
        rfl

/-- The opposite terms. -/
theorem negated (h : TermsOf d es P) : TermsOf d (es.map negated) (-P) := by
  have hcross := (single (.const (d := 0) (Arithmetic.ofInt (-1) : κ))).crossProduct h
  have hmap : Expr.crossProduct [ofInt (-1)] es = es.map Expr.negated := by
    rw [Expr.crossProduct, List.flatMap_singleton]
    rfl
  have hvalue : toPolynomial (.const (Arithmetic.ofInt (-1)) : Expr κ) = -1 := by
    simp [ExactNumber.value_ofInt]
  rw [hvalue, neg_one_mul] at hcross
  exact hmap ▸ hcross.mono (Nat.zero_add d).le

theorem foldl_add (hagain : FoldsSums again) (hd : d < degreeBound) (hes : ∀ f ∈ es, IsTerm 0 d f)
    (he : Reduced d (e.simplifyWith again) ∧ (e.simplifyWith again).toPolynomial = P) :
    Reduced d ((es.foldl .add e).simplifyWith again) ∧
      ((es.foldl .add e).simplifyWith again).toPolynomial = P + (es.map toPolynomial).sum := by
  induction es generalizing e P with
  | nil => simpa using he
  | cons f es ih =>
      obtain ⟨hf, hes⟩ := List.forall_mem_cons.1 hes
      obtain ⟨hterm, hp⟩ := hf.simplifyWith hagain
      obtain ⟨hreduced, hsum⟩ := he.1.simplifyAdd hterm.reduced hd
      rw [List.foldl_cons, List.map_cons, List.sum_cons, ← add_assoc]
      exact ih hes ⟨hreduced, by rw [Expr.simplifyWith, hsum, he.2, hp]⟩

/-- **Terms are collected to a reduced sum.** -/
theorem collect (h : TermsOf d es P) (hd : d < degreeBound) :
    Reduced d (collect es) ∧ (Expr.collect es).toPolynomial = P := by
  obtain ⟨hne, hes, rfl⟩ := h
  obtain ⟨again, hagain, hsimplify⟩ := exists_simplify_eq (sumOf es)
  rw [Expr.collect, hsimplify]
  cases es with
  | nil => exact absurd rfl hne
  | cons e es =>
      obtain ⟨he, hes⟩ := List.forall_mem_cons.1 hes
      obtain ⟨hterm, hp⟩ := he.simplifyWith hagain
      rw [List.map_cons, List.sum_cons]
      exact foldl_add hagain hd hes ⟨hterm.reduced, hp⟩

end TermsOf

/-! ### Expansion -/

/-- The splitting of collected sums into terms. -/
def SplitsSums (split : Expr κ → List (Expr κ)) : Prop :=
  ∀ d e, IsFlat d e → TermsOf d (split e) e.toPolynomial

variable {split : Expr κ → List (Expr κ)}

omit [ExactNumber κ] in
/-- A term is not split. -/
theorem IsTerm.expandedTermsWith (h : IsTerm 1 d e) : e.expandedTermsWith split = [e] := by
  induction h with
  | const c => rfl
  | var x _ => rfl
  | power x _ _ _ =>
      rw [Expr.expandedTermsWith]
      split <;> rfl
  | constPower b hc h => exact absurd h one_ne_zero
  | mul _ _ _ iha ihb =>
      rw [Expr.expandedTermsWith, iha, ihb]
      rfl

omit [ExactNumber κ] in
theorem IsTerm.relax (h : IsTerm 1 d e) : IsTerm 0 d e := by
  induction h with
  | const c => exact .const c
  | var x h1 => exact .var x h1
  | power x hc _ hle => exact .power x hc (Nat.zero_le _) hle
  | constPower b hc h => exact absurd h one_ne_zero
  | mul _ _ hle iha ihb => exact .mul iha ihb hle

/-- **A sum of terms is split into its terms**, whatever is done with powers of sums. -/
theorem splitsSums_expandedTermsWith (split : Expr κ → List (Expr κ)) :
    SplitsSums (expandedTermsWith split) := by
  intro d e h
  induction h with
  | term h =>
      rw [h.expandedTermsWith]
      exact .single h.relax
  | add _ _ iha ihb => exact iha.append ihb
  | sub _ _ iha ihb =>
      rw [toPolynomial_sub, sub_eq_add_neg]
      exact iha.append ihb.negated

theorem splitsSums_expandedTermsWithin (n : ℕ) :
    SplitsSums (expandedTermsWithin (κ := κ) n) := by
  cases n <;> exact splitsSums_expandedTermsWith _

theorem TermsOf.powerTerms {es : List (Expr κ)} {P : MvPolynomial String ℚ}
    (hsplit : SplitsSums split) (h : TermsOf d es P) (hd : n * d < degreeBound) :
    TermsOf (n * d) (powerTerms split es n) (P ^ n) := by
  induction n with
  | zero =>
      have hone : toPolynomial (.const (one : κ)) = 1 := by simp [one, ExactNumber.value_ofInt]
      rw [pow_zero, ← hone]
      exact .single (.const one)
  | succ n ih =>
      rw [Nat.succ_mul] at hd ⊢
      obtain ⟨hreduced, hp⟩ := ((ih (by omega)).crossProduct h).collect hd
      rw [pow_succ, ← hp]
      exact hsplit _ _ hreduced.flat

/-! ### Polynomials -/

/-- An expression of a polynomial: variables, numbers, sums, differences and products, and powers
of variables, numbers and sums with a natural number up to the sixteenth as exponent. -/
inductive IsPolynomial : Expr κ → Prop
  | var (x : String) : IsPolynomial (.var x)
  | const (c : κ) : IsPolynomial (.const c)
  | add {a b : Expr κ} : IsPolynomial a → IsPolynomial b → IsPolynomial (.add a b)
  | sub {a b : Expr κ} : IsPolynomial a → IsPolynomial b → IsPolynomial (.sub a b)
  | mul {a b : Expr κ} : IsPolynomial a → IsPolynomial b → IsPolynomial (.mul a b)
  | varPower {c : κ} {n : ℕ} (x : String) : Number.value c = n → n ≤ 16 →
      IsPolynomial (.pow (.var x) (.const c))
  | constPower {c : κ} {n : ℕ} (b : κ) : Number.value c = n → n ≤ 16 →
      IsPolynomial (.pow (.const b) (.const c))
  | sumPower {a : Expr κ} {c : κ} {n : ℕ} : IsPolynomial a → a.isSum = true →
      Number.value c = n → n ≤ 16 → IsPolynomial (.pow a (.const c))

theorem expandedExponent?_const (hc : Number.value c = n) (hn : n ≤ 16) :
    (Expr.const c).expandedExponent? = some n := by
  have hinteger : integer? c = some (n : ℤ) := integer?_eq_some_iff.2 (by simpa using hc)
  have hle : (n : ℤ) ≤ maxExpandedPower := by
    unfold maxExpandedPower
    omega
  simp [expandedExponent?, hinteger, hle]

/-- A power of an expression of one term stays. -/
theorem expandedTermsWith_pow_single (ha : a.expandedTermsWith split = [a])
    (hcollect : collect [a] = a) (hc : Number.value c = n) (hn : n ≤ 16) :
    (Expr.pow a (.const c)).expandedTermsWith split = [.pow a (.const c)] := by
  rw [Expr.expandedTermsWith, expandedExponent?_const hc hn, ha]
  dsimp only
  rw [if_pos (by simp), hcollect]

variable {I : Functions ℚ} {σ : Scope ℚ} {p q : Expr κ}

omit [ExactNumber κ] in
theorem DegreesBounded.lt (h : p.DegreesBounded I σ .polynomial) :
    p.degree I σ < degreeBound := by
  cases p <;>
    · rw [DegreesBounded] at h
      exact h.1

omit [ExactNumber κ] in
/-- The degree of a power with a natural number as exponent. -/
theorem degree_pow_const (a : Expr κ) (hc : Number.value c = n) :
    (Expr.pow a (.const c)).degree I σ = n * a.degree I σ := by
  have hvalue : HasValue I σ (.const c) ((n : ℤ) : ℚ) := by
    have := HasValue.const (I := I) (σ := σ) c
    rwa [valueIn_rat, hc] at this
  rw [degree, exponentAt_eq hvalue]
  simp [degree]

/-- **The terms of an expression add up to its polynomial.**  A sum has two terms at least. -/
theorem IsPolynomial.expandedTermsWith (hsplit : SplitsSums split) (h : IsPolynomial p)
    (degrees : p.DegreesBounded I σ .polynomial) :
    TermsOf (p.degree I σ) (p.expandedTermsWith split) p.toPolynomial ∧
      (p.isSum = true → 2 ≤ (p.expandedTermsWith split).length) := by
  induction h with
  | var x => exact ⟨.single (.var x le_rfl), by simp [isSum]⟩
  | const c => exact ⟨.single (.const c), by simp [isSum]⟩
  | @add a b _ _ iha ihb =>
      rw [DegreesBounded] at degrees
      obtain ⟨ha, -⟩ := iha degrees.2.1
      obtain ⟨hb, -⟩ := ihb degrees.2.2
      refine ⟨(ha.mono (le_max_left _ _)).append (hb.mono (le_max_right _ _)), fun _ => ?_⟩
      have := List.length_pos_iff.2 ha.ne_nil
      have := List.length_pos_iff.2 hb.ne_nil
      rw [Expr.expandedTermsWith, List.length_append]
      omega
  | @sub a b _ _ iha ihb =>
      rw [DegreesBounded] at degrees
      obtain ⟨ha, -⟩ := iha degrees.2.1
      obtain ⟨hb, -⟩ := ihb degrees.2.2
      rw [toPolynomial_sub, sub_eq_add_neg]
      refine ⟨(ha.mono (le_max_left _ _)).append (hb.mono (le_max_right _ _)).negated,
        fun _ => ?_⟩
      have := List.length_pos_iff.2 ha.ne_nil
      have := List.length_pos_iff.2 hb.ne_nil
      rw [Expr.expandedTermsWith, List.length_append, List.length_map]
      omega
  | mul _ _ iha ihb =>
      rw [DegreesBounded] at degrees
      exact ⟨(iha degrees.2.1).1.crossProduct (ihb degrees.2.2).1, by simp [isSum]⟩
  | @varPower c n x hc hn =>
      rw [expandedTermsWith_pow_single rfl rfl hc hn, degree_pow_const _ hc]
      exact ⟨.single (.power x hc (Nat.zero_le n) (Nat.mul_one n).ge), by simp [isSum]⟩
  | constPower b hc hn =>
      rw [expandedTermsWith_pow_single rfl rfl hc hn]
      exact ⟨.single (.constPower b hc rfl), by simp [isSum]⟩
  | @sumPower a c n _ hsum hc hn ih =>
      have hd := degrees.lt
      rw [DegreesBounded] at degrees
      obtain ⟨ha, hlength⟩ := ih degrees.2.1
      have hterms : (Expr.pow a (.const c)).expandedTermsWith split =
          Expr.powerTerms split (a.expandedTermsWith split) n := by
        rw [Expr.expandedTermsWith, expandedExponent?_const hc hn]
        exact if_neg (not_lt.2 (hlength hsum))
      rw [degree_pow_const _ hc] at hd ⊢
      rw [hterms, toPolynomial_pow _ hc]
      exact ⟨ha.powerTerms hsplit hd, by simp [isSum]⟩

/-- The expansion is a reduced sum with the same polynomial. -/
theorem IsPolynomial.expand (h : IsPolynomial p) (degrees : p.DegreesBounded I σ .polynomial) :
    Reduced (p.degree I σ) p.expand ∧ p.expand.toPolynomial = p.toPolynomial := by
  have hterms := (h.expandedTermsWith (splitsSums_expandedTermsWithin p.reach) degrees).1
  rw [Expr.expand, expandedTerms]
  exact hterms.collect degrees.lt

/-- The expansion is zero exactly when the polynomial is. -/
theorem IsPolynomial.expand_eq_zero (h : IsPolynomial p)
    (degrees : p.DegreesBounded I σ .polynomial) :
    p.expand = ofInt 0 ↔ p.toPolynomial = 0 := by
  obtain ⟨hreduced, hp⟩ := h.expand degrees
  rw [← hp]
  exact ⟨fun hzero => by rw [hzero]; simp, hreduced.eq_zero⟩

/-- **Expansion decides polynomial identity**: an expression of a polynomial is expanded to zero
exactly when the polynomial is zero, and a difference exactly when both polynomials are the
same. -/
theorem expand_eq_zero_iff (hp : IsPolynomial p) (hq : IsPolynomial q)
    (degrees : p.DegreesBounded I σ .polynomial)
    (degrees' : q.DegreesBounded I σ .polynomial) :
    (p.expand = ofInt 0 ↔ p.toPolynomial = 0) ∧
      ((Expr.sub p q).expand = ofInt 0 ↔ p.toPolynomial = q.toPolynomial) := by
  have bounded : (Expr.sub p q).DegreesBounded I σ .polynomial := by
    rw [DegreesBounded]
    exact ⟨max_lt degrees.lt degrees'.lt, degrees, degrees'⟩
  exact ⟨hp.expand_eq_zero degrees, by
    rw [(hp.sub hq).expand_eq_zero bounded, toPolynomial_sub, sub_eq_zero]⟩

/-- The square of `x + y`. -/
def binomialSquare : Expr Ratio := .pow (.add (.var "x") (.var "y")) (ofInt 2)

/-- The square of `x + y` term by term. -/
def binomialTerms : Expr Ratio :=
  .add (.add (.pow (.var "x") (ofInt 2)) (.mul (ofInt 2) (.mul (.var "x") (.var "y"))))
    (.pow (.var "y") (ofInt 2))

/-- The square of `x + y` is not zero, and it is the sum of its terms. -/
theorem expand_eq_zero_iff_binomial :
    IsPolynomial binomialSquare ∧ IsPolynomial binomialTerms ∧
      binomialSquare.DegreesBounded Ratio.functions Scope.empty .polynomial ∧
      binomialTerms.DegreesBounded Ratio.functions Scope.empty .polynomial ∧
      binomialSquare.expand ≠ ofInt 0 ∧
      (Expr.sub binomialSquare binomialTerms).expand = ofInt 0 := by
  have two : Number.value (Arithmetic.ofInt 2 : Ratio) = (2 : ℕ) := by
    rw [ExactNumber.value_ofInt]
    rfl
  have hp : IsPolynomial binomialSquare := .sumPower (.add (.var _) (.var _)) rfl two (by decide)
  have hq : IsPolynomial binomialTerms :=
    .add (.add (.varPower _ two (by decide)) (.mul (.const _) (.mul (.var _) (.var _))))
      (.varPower _ two (by decide))
  have exponent : exponentAt Ratio.functions Scope.empty (ofInt 2 : Expr Ratio) = 2 :=
    exponentAt_ofInt _ _ 2
  have degrees : binomialSquare.DegreesBounded Ratio.functions Scope.empty .polynomial ∧
      binomialTerms.DegreesBounded Ratio.functions Scope.empty .polynomial := by
    simp [binomialSquare, binomialTerms, DegreesBounded, degree, Grading.Admits, Grading.size,
      degreeBound, exponent]
  obtain ⟨hzero, hidentity⟩ := expand_eq_zero_iff hp hq degrees.1 degrees.2
  have hsquare : binomialSquare.toPolynomial = (X "x" + X "y") ^ 2 := toPolynomial_pow _ two
  refine ⟨hp, hq, degrees.1, degrees.2, fun h => ?_, hidentity.2 ?_⟩
  · -- at one and one the square is four
    have := congrArg (MvPolynomial.eval fun _ => (1 : ℚ)) (hsquare ▸ hzero.1 h)
    norm_num at this
  · have power (x : String) : (Expr.pow (.var x) (ofInt 2) : Expr Ratio).toPolynomial = X x ^ 2 :=
      toPolynomial_pow _ two
    have htwo : (C 2 : MvPolynomial String ℚ) = 2 := map_ofNat C 2
    simp only [hsquare, binomialTerms, toPolynomial_add, toPolynomial_mul, toPolynomial_var,
      toPolynomial_ofInt, power, Int.cast_ofNat, htwo]
    ring

end Reckoner.Expr
