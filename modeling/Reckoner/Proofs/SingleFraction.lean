/-
**Rational expressions as single fractions.**

An expression of variables, numbers, the four operations and integer powers is written as one
fraction whose numerator and denominator are without division and without negative exponents.
Pulling up the fractions takes negative powers to the other side of the bar; expanding and
simplifying either part only ever adds and multiplies exponents, and a quotient never arises where
there was none.

The fraction falls apart again when its denominator is a number.  Then the quotient is expanded, so
that the number divides every term by itself.  A number is divided, a variable and a power are
multiplied by the reciprocal, and a product that begins with a number has that number divided; but
any other product stays a quotient.  What is left in that case are quotients by this one number
inside a sum.

Exponents, numerators and denominators are followed through simplification as one family of
expressions, with a set of integers as exponents and a relation for the quotients.  It serves three
times: for all rational expressions, for those without division, and for those that are only
divided by one number.

Main definitions:

* `Reckoner.Expr.Built` — expressions without functions, with given exponents and quotients;
* `Reckoner.Expr.IsRationalFunction`, `Reckoner.Expr.DivisionFree` — the rational expressions, and
  those without division and negative exponents;
* `Reckoner.Expr.Undivided`, `Reckoner.Expr.IsSingleFraction` — one fraction bar at most.

Main results:

* `Reckoner.Expr.built_simplifyWithin` — the family is closed under simplification;
* `Reckoner.Expr.divisionFree_toFraction` — fractions are pulled up;
* `Reckoner.Expr.divisionFree_expand` — expansion brings no division;
* `Reckoner.Expr.rationalize_isSingleFraction_or` — **a rational expression becomes a single
  fraction**, unless the denominator is a number.
-/

import Reckoner.Proofs.Normalization
import Reckoner.Proofs.Occurrence

set_option autoImplicit false

namespace Reckoner

namespace Expr

open Arithmetic (isZero isOne isNegative integer? one)

variable {κ : Type} [Number κ]

/-! ### Expressions of given exponents and quotients -/

/-- The expressions without functions whose exponents are integers of a kind, and whose quotients
stand in a relation. -/
def Built (Exponent : ℤ → Prop) (Divides : Expr κ → Expr κ → Prop) : Expr κ → Prop
  | .var _ | .const _ => True
  | .add a b | .sub a b | .mul a b => a.Built Exponent Divides ∧ b.Built Exponent Divides
  | .div a b => a.Built Exponent Divides ∧ b.Built Exponent Divides ∧ Divides a b
  | .pow a b => a.Built Exponent Divides ∧ ∃ n : ℤ, Exponent n ∧ b = ofInt n
  | .apply _ _ => False

/-- What simplification demands of the exponents and of the quotients. -/
structure Buildable (Exponent : ℤ → Prop) (Divides : Expr κ → Expr κ → Prop) : Prop where
  /-- Positive integers are exponents. -/
  pos {n : ℤ} : 0 < n → Exponent n
  /-- The exponents of an equal base are added. -/
  add {m n : ℤ} : Exponent m → Exponent n → Exponent (m + n)
  /-- The exponents of a power of a power are multiplied. -/
  mul {m n : ℤ} : Exponent m → Exponent n → Exponent (m * n)
  /-- The exponents of a quotient of powers are subtracted, unless a number divides. -/
  sub {a b : Expr κ} {m n : ℤ} : Divides a b → b.isConst = false → Exponent m → Exponent n →
    Exponent (m - n)

variable {Exponent : ℤ → Prop} {Divides : Expr κ → Expr κ → Prop}
variable {a b e : Expr κ} {c : κ} {n : ℕ} {again : Expr κ → Expr κ}

theorem built_family (H : Buildable Exponent Divides) :
    Family (Built Exponent Divides) fun b => ∃ n : ℤ, Exponent n ∧ b = ofInt n where
  const _ := trivial
  add := Iff.rfl
  sub := Iff.rfl
  mul := Iff.rfl
  pow := Iff.rfl
  ofInt hn := ⟨_, H.pos hn, rfl⟩

@[simp] theorem built_const (c : κ) : Built Exponent Divides (.const c) := trivial

theorem Built.mono {Exponent' : ℤ → Prop} {Divides' : Expr κ → Expr κ → Prop}
    (hexponent : ∀ n, Exponent n → Exponent' n) (hdivides : ∀ a b, Divides a b → Divides' a b)
    (h : Built Exponent Divides e) : Built Exponent' Divides' e := by
  induction e with
  | var | const => exact trivial
  | add a b iha ihb | sub a b iha ihb | mul a b iha ihb => exact ⟨iha h.1, ihb h.2⟩
  | div a b iha ihb => exact ⟨iha h.1, ihb h.2.1, hdivides a b h.2.2⟩
  | pow a b iha _ =>
      obtain ⟨ha, n, hn, rfl⟩ := h
      exact ⟨iha ha, n, hexponent n hn, rfl⟩
  | apply => exact h.elim

/-! ### Simplification -/

/-- Trees that are rebuilt from two numbers are simplified to a number. -/
structure FoldsNumbers (again : Expr κ → Expr κ) : Prop where
  add (c d : κ) : again (.add (.const c) (.const d)) = .const (c + d)
  sub (c d : κ) : again (.sub (.const c) (.const d)) = .const (c - d)
  mul (c d : κ) : again (.mul (.const c) (.const d)) = .const (c * d)

theorem foldsNumbers_simplifyWithin (n : ℕ) : FoldsNumbers (simplifyWithin (κ := κ) n) := by
  cases n <;> exact ⟨fun _ _ => rfl, fun _ _ => rfl, fun _ _ => rfl⟩

variable [ExactNumber κ]

/-- A rule stays in the family, if lighter trees are simplified inside it. -/
theorem Rule.built (H : Buildable Exponent Divides) (hfold : FoldsNumbers again)
    (hagain : ∀ e, Named e → Built Exponent Divides e → e.weight < n →
      Built Exponent Divides (again e))
    {e e' : Expr κ} (r : Rule again e e') (hnamed : Named e) (h : Built Exponent Divides e)
    (hn : e.weight ≤ n) : Built Exponent Divides e' := by
  have F := built_family H
  have hnumber (k : ℤ) : (ofInt k : Expr κ).weight = 0 := rfl
  cases r with
  | keep => exact h
  | collect he => exact F.collected? h he
  | foldAdd | foldSub | foldMul | foldDiv | foldPow => exact built_const _
  | subSelf | zeroMul | mulZero | zeroDiv | divSelf | powZero | onePow => exact built_const _
  | zeroAdd => exact h.2
  | addZero => exact h.1
  | subZero => exact h.1
  | zeroSub =>
      have hnb := (onlyNames_sub.1 hnamed).2
      refine hagain _ (onlyNames_negated.2 hnb) ⟨trivial, h.2⟩ ?_
      simp only [weight] at hn
      simp only [negated, weight, hnumber]
      omega
  | oneMul => exact h.2
  | mulOne => exact h.1
  | product =>
      refine F.simplifyProduct ?_ h
      rintro _ _ ⟨j, hj, rfl⟩ ⟨k, hk, rfl⟩
      exact ⟨j + k, H.add hj hk, by rw [ofInt, ofInt, hfold.add, ofInt_add_ofInt]; rfl⟩
  | divOne => exact h.1
  | scale =>
      have hna := (onlyNames_mul.1 (onlyNames_div.1 hnamed).1).2
      refine hagain _ (onlyNames_mul.2 ⟨onlyNames_const _, hna⟩) ⟨trivial, h.1.2⟩ ?_
      simp only [weight] at hn ⊢
      omega
  | divConst =>
      have hna := (onlyNames_div.1 hnamed).1
      refine hagain _ (onlyNames_mul.2 ⟨onlyNames_const _, hna⟩) ⟨trivial, h.1⟩ ?_
      simp only [weight] at hn ⊢
      omega
  | @cancel a b hsame hconst =>
      obtain ⟨hbase, j, hj, hm⟩ := F.baseAndExponent h.1
      obtain ⟨-, k, hk, hm'⟩ := F.baseAndExponent h.2.1
      have hb : b.isConst = false := by
        cases b with
        | const d =>
            rw [same_iff_eq.1 hsame] at hconst
            simp [baseAndExponent, isConst] at hconst
        | _ => rfl
      have hna := (onlyNames_baseAndExponent (onlyNames_div.1 hnamed).1).1
      have hweight := a.weight_baseAndExponent_le
      rw [hm, hm', ofInt, ofInt, hfold.sub, ofInt_sub_ofInt]
      refine hagain _ (onlyNames_pow.2 ⟨hna, onlyNames_const _⟩)
        ⟨hbase, _, H.sub h.2.2 hb hj hk, rfl⟩ ?_
      simp only [weight] at hn ⊢
      omega
  | powOne => exact h.1
  | @powPow a m c hc =>
      obtain ⟨⟨ha, j, hj, rfl⟩, k, hk, hck⟩ := h
      have hna := (onlyNames_pow.1 (onlyNames_pow.1 hnamed).1).1
      have hproduct : again (.mul (ofInt j) (.const c)) = ofInt (j * k) := by
        rw [hck, ofInt, ofInt, hfold.mul, ofInt_mul_ofInt]
        rfl
      rw [hproduct]
      refine hagain _ (onlyNames_pow.2 ⟨hna, onlyNames_ofInt _⟩) ⟨ha, _, H.mul hj hk, rfl⟩ ?_
      simp only [weight, hnumber] at hn ⊢
      omega
  | foldApply => exact h.elim

/-- One pass stays in the family, if it keeps the relation of the quotients. -/
theorem built_simplifyWith (H : Buildable Exponent Divides) (hfold : FoldsNumbers again)
    (hlighter : Simplifies again n)
    (hagain : ∀ e, Named e → Built Exponent Divides e → e.weight < n →
      Built Exponent Divides (again e))
    (hdivides : ∀ a b, Named (.div a b) → (Expr.div a b).weight ≤ n → Divides a b →
      Divides (a.simplifyWith again) (b.simplifyWith again))
    (hnamed : Named e) (h : Built Exponent Divides e) (hn : e.weight ≤ n) :
    Built Exponent Divides (e.simplifyWith again) := by
  have operand {a : Expr κ} (hna : Named a) (ha : a.weight ≤ n) :
      Simplified a (a.simplifyWith again) := simplified_simplifyWith hlighter hna ha
  induction e with
  | var | const => exact trivial
  | add a b iha ihb =>
      obtain ⟨hna, hnb⟩ := onlyNames_add.1 hnamed
      simp only [weight] at hn
      obtain ⟨-, na, wa⟩ := operand hna (by omega)
      obtain ⟨-, nb, wb⟩ := operand hnb (by omega)
      exact (simplifyAdd_rule _ _).built H hfold hagain (onlyNames_add.2 ⟨na, nb⟩)
        ⟨iha hna h.1 (by omega), ihb hnb h.2 (by omega)⟩ (by simp only [weight]; omega)
  | sub a b iha ihb =>
      obtain ⟨hna, hnb⟩ := onlyNames_sub.1 hnamed
      simp only [weight] at hn
      obtain ⟨-, na, wa⟩ := operand hna (by omega)
      obtain ⟨-, nb, wb⟩ := operand hnb (by omega)
      exact (simplifySub_rule _ _).built H hfold hagain (onlyNames_sub.2 ⟨na, nb⟩)
        ⟨iha hna h.1 (by omega), ihb hnb h.2 (by omega)⟩ (by simp only [weight]; omega)
  | mul a b iha ihb =>
      obtain ⟨hna, hnb⟩ := onlyNames_mul.1 hnamed
      simp only [weight] at hn
      obtain ⟨-, na, wa⟩ := operand hna (by omega)
      obtain ⟨-, nb, wb⟩ := operand hnb (by omega)
      exact (simplifyMul_rule _ _).built H hfold hagain (onlyNames_mul.2 ⟨na, nb⟩)
        ⟨iha hna h.1 (by omega), ihb hnb h.2 (by omega)⟩ (by simp only [weight]; omega)
  | div a b iha ihb =>
      have hquotient := hdivides a b hnamed hn h.2.2
      obtain ⟨hna, hnb⟩ := onlyNames_div.1 hnamed
      simp only [weight] at hn
      obtain ⟨-, na, wa⟩ := operand hna (by omega)
      obtain ⟨-, nb, wb⟩ := operand hnb (by omega)
      exact (simplifyDiv_rule _ _).built H hfold hagain (onlyNames_div.2 ⟨na, nb⟩)
        ⟨iha hna h.1 (by omega), ihb hnb h.2.1 (by omega), hquotient⟩
        (by simp only [weight]; omega)
  | pow a b iha _ =>
      obtain ⟨ha, k, hk, rfl⟩ := h
      obtain ⟨hna, -⟩ := onlyNames_pow.1 hnamed
      have hnumber : (ofInt k : Expr κ).weight = 0 := rfl
      simp only [weight, hnumber] at hn
      obtain ⟨-, na, wa⟩ := operand hna (by omega)
      exact (simplifyPow_rule _ (ofInt k)).built H hfold hagain
        (onlyNames_pow.2 ⟨na, onlyNames_ofInt k⟩) ⟨iha hna ha (by omega), k, hk, rfl⟩
        (by simp only [weight, hnumber]; omega)
  | apply => exact h.elim

/-- **The family is closed under simplification**, as deep as the weight allows. -/
theorem built_simplifyWithin (H : Buildable Exponent Divides)
    (hdivides : ∀ n a b, Named (.div a b) → (Expr.div a b).weight ≤ n → Divides a b →
      Divides (simplifyWithin n a) (simplifyWithin n b))
    (n : ℕ) : ∀ e : Expr κ, Named e → Built Exponent Divides e → e.weight ≤ n →
      Built Exponent Divides (simplifyWithin n e) := by
  induction n with
  | zero =>
      intro e _ _ hn
      obtain ⟨c, hc⟩ := simplifyWith_of_weight_eq_zero (Nat.le_zero.1 hn)
      rw [simplifyWithin, hc]
      exact built_const c
  | succ n ih =>
      intro e hnamed h hn
      have hlighter : Simplifies (κ := κ) (simplifyWithin n) (n + 1) :=
        ⟨foldsSums_simplifyWithin n, fun a ha hlt =>
          simplified_simplifyWithin n a ha (Nat.lt_succ_iff.1 hlt)⟩
      exact built_simplifyWith H (foldsNumbers_simplifyWithin n) hlighter
        (fun a hna ha hlt => ih a hna ha (Nat.lt_succ_iff.1 hlt)) (hdivides (n + 1)) hnamed h hn

/-! ### Rational expressions -/

/-- A rational expression: there are no functions, and the exponents are integers. -/
def IsRationalFunction : Expr κ → Prop := Built (fun _ => True) fun _ _ => True

/-- A rational expression without division and without negative exponents. -/
def DivisionFree : Expr κ → Prop := Built (0 ≤ ·) fun _ _ => False

/-- A rational expression without negative exponents, in which expressions without division are
divided by the number `c`. -/
def DividedOnlyBy (c : κ) : Expr κ → Prop :=
  Built (0 ≤ ·) fun a b => a.DivisionFree ∧ b = .const c

omit [Number κ] [ExactNumber κ] in
theorem buildable_rational :
    Buildable (κ := κ) (fun _ => True) fun _ _ => True where
  pos _ := trivial
  add _ _ := trivial
  mul _ _ := trivial
  sub _ _ _ _ := trivial

omit [Number κ] [ExactNumber κ] in
theorem buildable_divisionFree : Buildable (κ := κ) (0 ≤ ·) fun _ _ => False where
  pos hn := hn.le
  add := Int.add_nonneg
  mul := Int.mul_nonneg
  sub h := h.elim

omit [ExactNumber κ] in
theorem buildable_dividedOnlyBy (c : κ) :
    Buildable (0 ≤ ·) fun (a b : Expr κ) => a.DivisionFree ∧ b = .const c where
  pos hn := hn.le
  add := Int.add_nonneg
  mul := Int.mul_nonneg
  sub h hb := by simp [h.2, isConst] at hb

theorem isRationalFunction_simplify (hnamed : Named e) (h : IsRationalFunction e) :
    IsRationalFunction e.simplify :=
  built_simplifyWithin buildable_rational (fun _ _ _ _ _ _ => trivial) _ e hnamed h le_rfl

theorem divisionFree_simplifyWithin (hnamed : Named e) (h : DivisionFree e)
    (hn : e.weight ≤ n) : DivisionFree (simplifyWithin n e) :=
  built_simplifyWithin buildable_divisionFree (fun _ _ _ _ _ h => h.elim) n e hnamed h hn

theorem divisionFree_simplify (hnamed : Named e) (h : DivisionFree e) : DivisionFree e.simplify :=
  divisionFree_simplifyWithin hnamed h le_rfl

theorem dividedOnlyBy_simplify (hnamed : Named e) (h : DividedOnlyBy c e) :
    DividedOnlyBy c e.simplify := by
  refine built_simplifyWithin (buildable_dividedOnlyBy c) ?_ _ e hnamed h le_rfl
  rintro n a _ hnamed hn ⟨ha, rfl⟩
  simp only [weight] at hn
  refine ⟨divisionFree_simplifyWithin (onlyNames_div.1 hnamed).1 ha (by omega), ?_⟩
  cases n <;> rfl

/-! ### Pulling up fractions -/

omit [ExactNumber κ] in
theorem divisionFree_times (ha : DivisionFree a) (hb : DivisionFree b) :
    DivisionFree (a.times b) := by
  unfold times
  split
  · exact hb
  · split
    · exact ha
    · exact ⟨ha, hb⟩

omit [ExactNumber κ] in
theorem divisionFree_toPower {k : ℤ} (h : DivisionFree e) (hk : 0 ≤ k) :
    DivisionFree (e.toPower (Arithmetic.ofInt k)) := by
  unfold toPower
  split
  · exact h
  · exact ⟨h, k, hk, rfl⟩

/-- Numerator and denominator of a rational expression are without division. -/
theorem divisionFree_toFraction (h : IsRationalFunction e) :
    DivisionFree e.toFraction.num ∧ DivisionFree e.toFraction.den := by
  have join {op : Expr κ → Expr κ → Expr κ}
      (hop : ∀ {a b}, DivisionFree a → DivisionFree b → DivisionFree (op a b)) {p q : Fraction κ}
      (hp : DivisionFree p.num ∧ DivisionFree p.den)
      (hq : DivisionFree q.num ∧ DivisionFree q.den) :
      DivisionFree (Fraction.join op p q).num ∧ DivisionFree (Fraction.join op p q).den := by
    unfold Fraction.join
    split
    · exact ⟨hop hp.1 hq.1, hp.2⟩
    · exact ⟨hop (divisionFree_times hp.1 hq.2) (divisionFree_times hq.1 hp.2),
        divisionFree_times hp.2 hq.2⟩
  induction e with
  | var x => exact ⟨trivial, trivial⟩
  | const c => exact ⟨trivial, trivial⟩
  | add a b iha ihb =>
      exact join (fun ha hb => show DivisionFree (.add _ _) from ⟨ha, hb⟩) (iha h.1) (ihb h.2)
  | sub a b iha ihb =>
      exact join (fun ha hb => show DivisionFree (.sub _ _) from ⟨ha, hb⟩) (iha h.1) (ihb h.2)
  | mul a b iha ihb =>
      exact ⟨divisionFree_times (iha h.1).1 (ihb h.2).1,
        divisionFree_times (iha h.1).2 (ihb h.2).2⟩
  | div a b iha ihb =>
      exact ⟨divisionFree_times (iha h.1).1 (ihb h.2.1).2,
        divisionFree_times (iha h.1).2 (ihb h.2.1).1⟩
  | pow a b iha _ =>
      obtain ⟨ha, k, -, rfl⟩ := h
      obtain ⟨hnum, hden⟩ := iha ha
      have hinteger : (integer? (Arithmetic.ofInt k : κ)).isSome = true := by
        rw [integer?_eq_some_iff.2 (ExactNumber.value_ofInt k)]
        rfl
      rw [ofInt, toFraction, if_pos hinteger, Fraction.pow]
      -- a negative exponent takes the power to the other side of the bar
      split
      · rename_i hneg
        rw [isNegative_iff, ExactNumber.value_ofInt] at hneg
        have hopposite : (-Arithmetic.ofInt k : κ) = Arithmetic.ofInt (-k) := by
          refine ExactNumber.value_injective ?_
          rw [ExactNumber.value_neg, ExactNumber.value_ofInt, ExactNumber.value_ofInt,
            Int.cast_neg]
        have hk : 0 ≤ -k := by
          have : k < 0 := by exact_mod_cast hneg
          omega
        rw [hopposite]
        exact ⟨divisionFree_toPower hden hk, divisionFree_toPower hnum hk⟩
      · rename_i hneg
        rw [isNegative_iff, ExactNumber.value_ofInt, not_lt] at hneg
        have hk : 0 ≤ k := by exact_mod_cast hneg
        exact ⟨divisionFree_toPower hnum hk, divisionFree_toPower hden hk⟩
  | apply => exact h.elim

/-! ### Expansion -/

section Expansion

variable {es fs : List (Expr κ)} {split : Expr κ → List (Expr κ)}

omit [ExactNumber κ] in
theorem Built.sumOf (h : ∀ t ∈ es, Built Exponent Divides t) :
    Built Exponent Divides (sumOf es) :=
  sumOf_induction trivial (fun _ => id) (fun _ _ ha ht => ⟨ha, ht⟩) h

theorem divisionFree_collect (hnamed : TermsOnlyNames IsName es)
    (h : ∀ t ∈ es, DivisionFree t) : DivisionFree (collect es) :=
  divisionFree_simplify hnamed.sumOf (Built.sumOf h)

theorem divisionFree_powerTerms (hnames : SplitsNames IsName split)
    (hsplit : ∀ e, Named e → DivisionFree e → ∀ t ∈ split e, DivisionFree t)
    (names : TermsOnlyNames IsName es) (hes : ∀ t ∈ es, DivisionFree t) (n : ℕ) :
    ∀ t ∈ powerTerms split es n, DivisionFree t := by
  induction n with
  | zero => exact List.forall_mem_singleton.2 trivial
  | succ n ih =>
      have hproducts := (names.powerTerms hnames n).crossProduct names
      exact hsplit _ hproducts.collect
        (divisionFree_collect hproducts (forall_mem_crossProduct fun a ha b hb => ⟨ih a ha, hes b hb⟩))

/-- The terms of an expression without division are without division. -/
theorem divisionFree_expandedTermsWith (hnames : SplitsNames IsName split)
    (hsplit : ∀ e, Named e → DivisionFree e → ∀ t ∈ split e, DivisionFree t)
    (hnamed : Named e) (h : DivisionFree e) :
    ∀ t ∈ e.expandedTermsWith split, DivisionFree t := by
  induction e with
  | var x => exact List.forall_mem_singleton.2 h
  | const c => exact List.forall_mem_singleton.2 h
  | add a b iha ihb =>
      obtain ⟨hna, hnb⟩ := onlyNames_add.1 hnamed
      exact List.forall_mem_append.2 ⟨iha hna h.1, ihb hnb h.2⟩
  | sub a b iha ihb =>
      obtain ⟨hna, hnb⟩ := onlyNames_sub.1 hnamed
      exact List.forall_mem_append.2 ⟨iha hna h.1, List.forall_mem_map.2 fun t ht =>
        ⟨trivial, ihb hnb h.2 t ht⟩⟩
  | mul a b iha ihb =>
      obtain ⟨hna, hnb⟩ := onlyNames_mul.1 hnamed
      exact forall_mem_crossProduct fun s hs t ht => ⟨iha hna h.1 s hs, ihb hnb h.2 t ht⟩
  | div => exact h.2.2.elim
  | pow a b iha _ =>
      obtain ⟨ha, k, hk, rfl⟩ := h
      have hna := (onlyNames_pow.1 hnamed).1
      have names := splitsNames_expandedTermsWith hnames a hna
      have hes := iha hna ha
      have hcollect := divisionFree_collect names hes
      unfold expandedTermsWith
      dsimp only
      split
      · split
        · exact List.forall_mem_singleton.2 ⟨hcollect, k, hk, rfl⟩
        · exact divisionFree_powerTerms hnames hsplit names hes _
      · exact List.forall_mem_singleton.2 ⟨hcollect, k, hk, rfl⟩
  | apply => exact h.elim

theorem divisionFree_expandedTermsWithin (n : ℕ) : ∀ e : Expr κ, Named e → DivisionFree e →
    ∀ t ∈ expandedTermsWithin n e, DivisionFree t := by
  induction n with
  | zero =>
      exact fun e => divisionFree_expandedTermsWith (fun _ => termsOnlyNames_singleton.2)
        fun e _ h => List.forall_mem_singleton.2 h
  | succ n ih =>
      exact fun e => divisionFree_expandedTermsWith (splitsNames_expandedTermsWithin n) ih

/-- **Expansion brings no division.** -/
theorem divisionFree_expand (hnamed : Named e) (h : DivisionFree e) : DivisionFree e.expand :=
  divisionFree_collect (splitsNames_expandedTermsWithin (e.reach + 1) e hnamed)
    (divisionFree_expandedTermsWithin (e.reach + 1) e hnamed h)

/-- When a quotient by a number is expanded, the number divides every term. -/
theorem dividedOnlyBy_expand (hnamed : Named a) (h : DivisionFree a) :
    DividedOnlyBy c (Expr.div a (.const c)).expand := by
  have hnamed' : Named (.div a (.const c)) := onlyNames_div.2 ⟨hnamed, onlyNames_const c⟩
  have hterms : ∀ t ∈ (Expr.div a (.const c)).expandedTerms, DividedOnlyBy c t := by
    refine List.forall_mem_map.2 fun t ht => ?_
    have hfree := divisionFree_expandedTermsWithin (_ + 1) a hnamed h t ht
    exact ⟨hfree.mono (fun _ => id) fun _ _ => False.elim, trivial, hfree, rfl⟩
  exact dividedOnlyBy_simplify (splitsNames_expandedTermsWithin (_ + 1) _ hnamed').sumOf
    (Built.sumOf hterms)

end Expansion

/-! ### Single fractions -/

/-- There is no quotient and no negative number as an exponent anywhere. -/
def Undivided : Expr κ → Prop
  | .var _ | .const _ => True
  | .add a b | .sub a b | .mul a b => a.Undivided ∧ b.Undivided
  | .div _ _ => False
  | .pow a b => a.Undivided ∧ b.Undivided ∧ ∀ c, b = .const c → isNegative c = false
  | .apply _ a => a.Undivided

/-- There is no fraction bar, or one at the root and no other. -/
def IsSingleFraction (e : Expr κ) : Prop :=
  e.Undivided ∨ ∃ a b, e = .div a b ∧ a.Undivided ∧ b.Undivided

theorem DivisionFree.undivided (h : DivisionFree e) : Undivided e := by
  induction e with
  | var | const => exact trivial
  | add a b iha ihb | sub a b iha ihb | mul a b iha ihb => exact ⟨iha h.1, ihb h.2⟩
  | div => exact h.2.2.elim
  | pow a b iha _ =>
      obtain ⟨ha, k, hk, rfl⟩ := h
      refine ⟨iha ha, trivial, fun c hc => ?_⟩
      obtain rfl := Expr.const.inj hc
      rw [Bool.eq_false_iff, Ne, isNegative_iff, ExactNumber.value_ofInt, not_lt]
      exact_mod_cast hk
  | apply => exact h.elim

/-- **A rational expression becomes a single fraction**, unless its denominator expands to a number
other than zero and one.  In that case no exponent is negative, and every quotient that is left is
one of an expression without division by this number. -/
theorem rationalize_isSingleFraction_or (hnamed : Named e) (h : e.IsRationalFunction) :
    e.rationalize.IsSingleFraction ∨
      ∃ c, e.simplify.toFraction.den.expand = .const c ∧ isOne c = false ∧ isZero c = false ∧
        e.rationalize.DividedOnlyBy c := by
  have hsimplify : Named e.simplify := onlyNames_simplify hnamed
  obtain ⟨nnum, nden⟩ := onlyNames_toFraction hsimplify
  obtain ⟨hnum, hden⟩ := divisionFree_toFraction (isRationalFunction_simplify hnamed h)
  have num := divisionFree_expand nnum hnum
  have den := divisionFree_expand nden hden
  unfold rationalize
  dsimp only
  split
  · rename_i c hc
    split
    · exact .inl (.inl num.undivided)
    · rename_i hone
      split
      · exact .inl (.inr ⟨_, _, rfl, num.undivided, trivial⟩)
      · rename_i hzero
        exact .inr ⟨c, hc, Bool.eq_false_iff.2 hone, Bool.eq_false_iff.2 hzero,
          dividedOnlyBy_expand (onlyNames_expand nnum) num⟩
  · exact .inl (.inr ⟨_, _, rfl, num.undivided, den.undivided⟩)

/-- `x + 1 / x ^ 2`. -/
theorem rationalize_isSingleFraction_or_negativePower :
    let e : Expr Ratio := .add (.var "x") (.pow (.var "x") (ofInt (-2)))
    Named e ∧ e.IsRationalFunction ∧ (e.rationalize.IsSingleFraction ∨
      ∃ c, e.simplify.toFraction.den.expand = .const c ∧ isOne c = false ∧ isZero c = false ∧
        e.rationalize.DividedOnlyBy c) := by
  intro e
  have hx : IsName "x" := by decide
  have hnamed : Named e := by simp [e, hx]
  have h : e.IsRationalFunction := ⟨trivial, trivial, -2, trivial, rfl⟩
  exact ⟨hnamed, h, rationalize_isSingleFraction_or hnamed h⟩

/-- `(x * y + x) / 2`, which becomes `x * y / 2 + 0.5 * x`. -/
theorem not_isSingleFraction_productByNumber :
    let e : Expr Ratio := .div (.add (.mul (.var "x") (.var "y")) (.var "x")) (ofInt 2)
    e.IsRationalFunction ∧ ¬e.rationalize.IsSingleFraction := by
  intro e
  refine ⟨⟨⟨⟨trivial, trivial⟩, trivial⟩, trivial, trivial⟩, ?_⟩
  have hrationalize : e.rationalize =
      .add (.div (.mul (.var "x") (.var "y")) (ofInt 2))
        (.mul (.const ⟨1 / 2⟩) (.var "x")) := same_iff_eq.1 (by cbv)
  rw [hrationalize]
  rintro (h | ⟨a, b, h, -⟩)
  · exact h.1
  · simp at h

end Expr

end Reckoner
