/-
**Simplification keeps the value.**

Every rule of simplification keeps values and degrees, provided that the trees it rebuilds are
treated in the same way.  By induction over the expression one pass does so, and by induction over
the number of nested passes so does the whole simplification.

A rule is only applied to simplified operands, among which no number is hidden in an operation:
where the degree of an operation is zero, its operands are numbers and are folded.

Main results:

* `Reckoner.Expr.Rule.graded` — **a rule keeps the value and the degrees**;
* `Reckoner.Expr.Graded.simplify` — so does simplification;
* `Reckoner.Expr.simplify_hasValue` — **simplification keeps the value of every expression**.
-/

import Reckoner.Proofs.Powers
import Reckoner.Proofs.Ratio

set_option autoImplicit false

namespace Reckoner.Expr

open Arithmetic (isZero isOne integer? nearInteger?)

variable {κ : Type} [Number κ] {K : Type} [Field K]
variable {I : Functions K} {σ : Scope K} {g : Grading}
variable {a b e e' : Expr κ} {u v w : K} {d q i j k l : ℕ}
variable {again : Expr κ → Expr κ}

/-! ### Rules -/

section Rules

variable [CharZero K] [ExactNumber κ]

/-- The number in front of a product is divided by a number. -/
theorem Graded.scaledQuotient (hagain : KeepsGrades I σ again) {c c' : κ}
    (h : Graded 1 I σ g (.div (.mul (.const c) a) (.const c')) v d q) :
    Graded 1 I σ g (again (.mul (.const (c / c')) a)) v d q := by
  have hd := h.admits
  cases h with
  | div hprod hb hne hj hl h1 _ =>
      cases hprod with
      | mul hc ha hi hk _ _ =>
          rw [hasValue_const_iff.1 hb.hasValue] at hne ⊢
          rw [hasValue_const_iff.1 hc.hasValue, mul_div_right_comm, ← valueIn_div hne]
          exact hagain _ _ _ _ _ (.mul (.const _ g.admits_zero) ha (by omega) (by omega) h1 hd)

/-- A quotient by a number is a product with a number. -/
theorem Graded.dividedByConst (hagain : KeepsGrades I σ again) {c : κ}
    (h : Graded 1 I σ g (.div a (.const c)) v d q) :
    Graded 1 I σ g (again (.mul (.const (Arithmetic.one / c)) a)) v d q := by
  have hd := h.admits
  cases h with
  | div ha hb hne hj hl h1 _ =>
      rw [hasValue_const_iff.1 hb.hasValue] at hne ⊢
      rw [div_eq_mul_one_div, mul_comm, ← valueIn_one (κ := κ), ← valueIn_div hne]
      exact hagain _ _ _ _ _ (.mul (.const _ g.admits_zero) ha (by omega) (by omega) h1 hd)

/-- A quotient of powers of one base is a power of it. -/
theorem Graded.cancelled (hagain : KeepsGrades I σ again)
    (hs : a.baseAndExponent.1.same b.baseAndExponent.1 = true)
    (hc : a.baseAndExponent.1.isConst = false) (h : Graded 1 I σ g (.div a b) v d q) :
    Graded 1 I σ g (again (.pow a.baseAndExponent.1
      (again (.sub a.baseAndExponent.2 b.baseAndExponent.2)))) v d q := by
  have hd := h.admits
  cases h with
  | div ha hb hne hj hl h1 _ =>
      have hs := same_iff_eq.1 hs
      have hac : a.isConst = false := isConst_of_baseAndExponent hc
      have hbc : b.isConst = false := isConst_of_baseAndExponent (hs ▸ hc)
      -- both are powers of the base of the numerator
      have hnum := ha.baseAndExponent (ha.one_le hac)
      have hden := hb.baseAndExponent (hb.one_le hbc)
      rw [← hs] at hden
      have hcancel := hnum.cancelBases hagain hden hne (hd.mono hj hl)
      exact hagain _ _ _ _ _ (hcancel.mono hj hl hd)

/-- **A rule keeps the value and the degrees.** -/
theorem Rule.graded (folds : FoldsExactly κ I) (hagain : KeepsGrades I σ again)
    (r : Rule again e e') (h : Graded 1 I σ g e v d q) : Graded 1 I σ g e' v d q := by
  have hb := h.admits
  -- one case a rule; what is inverted is the operation at the root, and the degrees of a part are
  -- at most those of the whole
  cases r with
  | keep => exact h
  | collect he => exact h.collected? he
  | foldAdd c c' =>
      cases h with
      | add ha hb' _ _ _ _ =>
          rw [hasValue_const_iff.1 ha.hasValue, hasValue_const_iff.1 hb'.hasValue, ← valueIn_add]
          exact .const _ hb
  | zeroAdd hz =>
      cases h with
      | add ha hb' hj hl _ _ =>
          rw [ha.hasValue.eq_zero hz, zero_add]
          exact hb'.mono (by omega) (by omega) hb
  | addZero hz =>
      cases h with
      | add ha hb' hj hl _ _ =>
          rw [hb'.hasValue.eq_zero hz, add_zero]
          exact ha.mono (by omega) (by omega) hb
  | foldSub c c' =>
      cases h with
      | sub ha hb' _ _ _ _ =>
          rw [hasValue_const_iff.1 ha.hasValue, hasValue_const_iff.1 hb'.hasValue, ← valueIn_sub]
          exact .const _ hb
  | subZero hz =>
      cases h with
      | sub ha hb' hj hl _ _ =>
          rw [hb'.hasValue.eq_zero hz, sub_zero]
          exact ha.mono (by omega) (by omega) hb
  | subSelf hs =>
      cases h with
      | sub ha hb' _ _ _ _ =>
          obtain rfl := same_iff_eq.1 hs
          rw [ha.unique hb', sub_self]
          exact .ofInt_zero hb
  | zeroSub hz =>
      cases h with
      | sub ha hb' hj hl h1 _ =>
          rw [ha.hasValue.eq_zero hz, zero_sub, ← neg_one_mul, ← Int.cast_one, ← Int.cast_neg]
          exact hagain _ _ _ _ _
            (.mul (.ofInt (-1) g.admits_zero) hb' (by omega) (by omega) h1 hb)
  | foldMul c c' =>
      cases h with
      | mul ha hb' _ _ _ _ =>
          rw [hasValue_const_iff.1 ha.hasValue, hasValue_const_iff.1 hb'.hasValue, ← valueIn_mul]
          exact .const _ hb
  | zeroMul hz =>
      cases h with
      | mul ha _ _ _ _ _ =>
          rw [ha.hasValue.eq_zero hz, zero_mul]
          exact .ofInt_zero hb
  | mulZero hz =>
      cases h with
      | mul _ hb' _ _ _ _ =>
          rw [hb'.hasValue.eq_zero hz, mul_zero]
          exact .ofInt_zero hb
  | oneMul ho =>
      cases h with
      | mul ha hb' hj hl _ _ =>
          rw [ha.hasValue.eq_one ho, one_mul]
          exact hb'.mono (by omega) (by omega) hb
  | mulOne ho =>
      cases h with
      | mul ha hb' hj hl _ _ =>
          rw [hb'.hasValue.eq_one ho, mul_one]
          exact ha.mono (by omega) (by omega) hb
  | product a b => exact h.simplifyProduct hagain
  | foldDiv hz =>
      cases h with
      | div ha hb' hne _ _ _ _ =>
          rw [hasValue_const_iff.1 hb'.hasValue] at hne ⊢
          rw [hasValue_const_iff.1 ha.hasValue, ← valueIn_div hne]
          exact .const _ hb
  | zeroDiv hz =>
      cases h with
      | div ha _ _ _ _ _ _ =>
          rw [ha.hasValue.eq_zero hz, zero_div]
          exact .ofInt_zero hb
  | divOne ho =>
      cases h with
      | div ha hb' _ hj hl _ _ =>
          rw [hb'.hasValue.eq_one ho, div_one]
          exact ha.mono (by omega) (by omega) hb
  | divSelf hs =>
      cases h with
      | div ha hb' hne _ _ _ _ =>
          obtain rfl := same_iff_eq.1 hs
          rw [ha.unique hb', div_self hne]
          exact .ofInt_one hb
  | scale _ => exact h.scaledQuotient hagain
  | divConst _ => exact h.dividedByConst hagain
  | cancel hs hc => exact h.cancelled hagain hs hc
  | foldPow c c' =>
      cases h with
      | pow ha hn hne _ _ _ _ _ =>
          have hn := (hasValue_const_iff.1 hn.hasValue).symm
          rw [hasValue_const_iff.1 ha.hasValue] at hne ⊢
          rw [← valueIn_pow hn hne]
          exact .const _ hb
  | powZero hz =>
      cases h with
      | pow _ hn _ _ _ _ _ _ =>
          rw [Int.cast_eq_zero.1 (hn.hasValue.eq_zero hz), zpow_zero]
          exact .ofInt_one hb
  | @powOne _ b ho => exact Graded.base_of_isOneConst (p := (_, b)) h ho
  | onePow ho =>
      cases h with
      | pow ha _ _ _ _ _ _ _ =>
          rw [ha.hasValue.eq_one ho, one_zpow]
          exact .ofInt_one hb
  | powPow _ => exact hagain _ _ _ _ _ (h.mergeExponents hagain)
  | foldApply hf =>
      cases h with
      | apply ha hv _ _ =>
          rw [hasValue_const_iff.1 ha.hasValue] at hv
          rw [folds _ _ _ _ hf hv]
          exact .ofInt _ hb

end Rules

/-! ### Whole expressions -/

section Passes

variable [CharZero K] [ExactNumber κ]

omit [CharZero K] [ExactNumber κ] in
/-- Two operands of degree zero are numbers. -/
theorem Graded.exists_consts (ha : Graded 1 I σ g a u i k) (hb : Graded 1 I σ g b v j l)
    (hi : i = 0) (hj : j = 0) : ∃ c c' : κ, a = .const c ∧ b = .const c' ∧ u = valueIn K c ∧
      v = valueIn K c' := by
  subst hi hj
  obtain ⟨c, rfl, hu⟩ := ha.exists_const
  obtain ⟨c', rfl, hv⟩ := hb.exists_const
  exact ⟨c, c', rfl, rfl, hu, hv⟩

/-- A power of degree zero with simplified operands is simplified to a number. -/
theorem Graded.simplifyPow_of_zero {n : ℤ} (ha : Graded 1 I σ g a u i k)
    (hb : Graded 1 I σ .polynomial b n j l) (hne : u ≠ 0 ∨ 0 ≤ n) (hi : n.natAbs * i = 0)
    (hj : j = 0) (hd : g.Admits d q) : Graded 1 I σ g (simplifyPow again a b) (u ^ n) d q := by
  subst hj
  obtain ⟨c', rfl, hn⟩ := hb.exists_const
  cases ha' : a.isConst with
  | true =>
      obtain ⟨c, rfl⟩ := exists_const_of_isConst ha'
      rw [hasValue_const_iff.1 ha.hasValue] at hne ⊢
      have : Graded 1 I σ g (.const (Arithmetic.pow c c')) _ d q := .const _ hd
      rwa [valueIn_pow hn.symm hne] at this
  | false =>
      -- the base is no number, so that the exponent is zero
      have hi0 := ha.one_le ha'
      obtain rfl : n = 0 := by
        rcases Nat.mul_eq_zero.1 hi with h | h
        · exact Int.natAbs_eq_zero.1 h
        · omega
      have hz : (Expr.const c').isZeroConst = true :=
        (isZero_iff (K := K)).2 (by simpa using hn.symm)
      have hone : simplifyPow again a (.const c') = Expr.ofInt 1 := by
        unfold simplifyPow
        split
        · simp [isConst] at ha'
        · rw [if_pos hz]
      rw [hone, zpow_zero]
      exact .ofInt_one hd

/-- One pass keeps the value and the degrees, and leaves only numbers with degree zero. -/
theorem Graded.simplifyWith (folds : FoldsExactly κ I) (hagain : KeepsGrades I σ again)
    (h : Graded 0 I σ g e v d q) : Graded 1 I σ g (simplifyWith again e) v d q := by
  induction h with
  | var hx hv h1 hb => exact .var hx hv h1 hb
  | const c hb => exact .const c hb
  | @add g a b u v i j k l d q _ _ hj hl _ hb iha ihb =>
      -- degree zero is not enough for a rule, but then the operands are numbers and are folded
      rcases Nat.eq_zero_or_pos d with h0 | h1
      · obtain ⟨c, c', hc, hc', rfl, rfl⟩ := iha.exists_consts ihb (by omega) (by omega)
        rw [Expr.simplifyWith, hc, hc', ← valueIn_add]
        exact .const _ hb
      · exact (simplifyAdd_rule _ _).graded folds hagain (iha.add ihb hj hl h1 hb)
  | @sub g a b u v i j k l d q _ _ hj hl _ hb iha ihb =>
      rcases Nat.eq_zero_or_pos d with h0 | h1
      · obtain ⟨c, c', hc, hc', rfl, rfl⟩ := iha.exists_consts ihb (by omega) (by omega)
        rw [Expr.simplifyWith, hc, hc', ← valueIn_sub]
        exact .const _ hb
      · exact (simplifySub_rule _ _).graded folds hagain (iha.sub ihb hj hl h1 hb)
  | @mul g a b u v i j k l d q _ _ hj hl _ hb iha ihb =>
      rcases Nat.eq_zero_or_pos d with h0 | h1
      · obtain ⟨c, c', hc, hc', rfl, rfl⟩ := iha.exists_consts ihb (by omega) (by omega)
        rw [Expr.simplifyWith, hc, hc', ← valueIn_mul]
        exact .const _ hb
      · exact (simplifyMul_rule _ _).graded folds hagain (iha.mul ihb hj hl h1 hb)
  | @div g a b u v i j k l d q _ _ hv hj hl _ hb iha ihb =>
      rcases Nat.eq_zero_or_pos d with h0 | h1
      · obtain ⟨c, c', hc, hc', rfl, rfl⟩ := iha.exists_consts ihb (by omega) (by omega)
        have hz : isZero c' = false := Bool.eq_false_iff.2 (mt (isZero_iff (K := K)).1 hv)
        rw [Expr.simplifyWith, hc, hc', ← valueIn_div hv]
        simp only [simplifyDiv, hz]
        exact .const _ hb
      · exact (simplifyDiv_rule _ _).graded folds hagain (iha.div ihb hv hj hl h1 hb)
  | @pow g a b u n i j k l d q _ _ hn hi hj hk _ hb iha ihb =>
      rcases Nat.eq_zero_or_pos d with h0 | h1
      · exact iha.simplifyPow_of_zero ihb hn (by omega) (by omega) hb
      · exact (simplifyPow_rule _ _).graded folds hagain (iha.pow ihb hn hi hj hk h1 hb)
  | apply _ hf h1 hb ih => exact (simplifyApply_rule _ _).graded folds hagain (ih.apply hf h1 hb)

theorem keepsGrades_simplifyWithin (folds : FoldsExactly κ I) (n : ℕ) :
    KeepsGrades I σ (simplifyWithin (κ := κ) n) := by
  induction n with
  | zero => exact fun g e v d q h => h.relax.simplifyWith folds fun _ _ _ _ _ h => h
  | succ n ih => exact fun g e v d q h => h.relax.simplifyWith folds ih

/-- Simplification keeps the value and the degrees, and leaves only numbers with degree zero. -/
theorem Graded.simplify (folds : FoldsExactly κ I) (h : Graded 0 I σ g e v d q) :
    Graded 1 I σ g e.simplify v d q := by
  unfold Expr.simplify
  cases e.weight with
  | zero => exact h.simplifyWith folds fun _ _ _ _ _ h => h
  | succ n => exact h.simplifyWith folds (keepsGrades_simplifyWithin folds n)

/-- **Simplification keeps the value of every expression.**  The names in it are identifiers, and
its degrees under the scope are below the bound; where it has a value, its simplification has the
same. -/
theorem simplify_hasValue (folds : FoldsExactly κ I) (names : Named e)
    (degrees : e.DegreesBounded I σ .polynomial) (h : HasValue I σ e v) :
    HasValue I σ e.simplify v :=
  ((Graded.of_hasValue h names degrees).simplify folds).hasValue

end Passes

/-- The cube of a variable over the variable, and twice its square. -/
def cubeOverSelf : Expr Ratio :=
  .add (.div (.pow (.var "x") (ofInt 3)) (.var "x")) (.mul (ofInt 2) (.pow (.var "x") (ofInt 2)))

theorem hasValue_cubeOverSelf :
    HasValue Ratio.functions (.single "x" (3 : ℚ)) cubeOverSelf 27 := by
  have hx : HasValue Ratio.functions (.single "x" (3 : ℚ)) (.var "x" : Expr Ratio) 3 := .var rfl
  have cube := hx.pow (.ofInt (κ := Ratio) 3) (.inl (by norm_num))
  have square := hx.pow (.ofInt (κ := Ratio) 2) (.inl (by norm_num))
  have := (cube.div hx (by norm_num)).add ((HasValue.ofInt 2).mul square)
  norm_num at this
  exact this

/-- The value of `(x ^ 3) / x + 2 * (x ^ 2)` at three is kept. -/
theorem simplify_hasValue_cubeOverSelf :
    FoldsExactly Ratio Ratio.functions ∧ Named cubeOverSelf ∧
      cubeOverSelf.DegreesBounded Ratio.functions (.single "x" (3 : ℚ)) .polynomial ∧
      HasValue Ratio.functions (.single "x" (3 : ℚ)) cubeOverSelf 27 ∧
      HasValue Ratio.functions (.single "x" (3 : ℚ)) cubeOverSelf.simplify 27 := by
  have names : Named cubeOverSelf := by
    have : IsName "x" := by decide
    simp [cubeOverSelf, Named, this]
  have degrees :
      cubeOverSelf.DegreesBounded Ratio.functions (.single "x" (3 : ℚ)) .polynomial := by
    simp [cubeOverSelf, DegreesBounded, degree, Grading.Admits, Grading.size, degreeBound]
  exact ⟨Ratio.foldsExactly, names, degrees, hasValue_cubeOverSelf,
    simplify_hasValue Ratio.foldsExactly names degrees hasValue_cubeOverSelf⟩

end Reckoner.Expr
