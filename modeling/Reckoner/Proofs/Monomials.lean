/-
**Collecting like terms leads to a normal form.**

The terms of a polynomial are products of numbers and powers of variables.  Collecting them leads
to a sum of distinct monomials with coefficients other than zero, and distinct monomials are
linearly independent.  So a collected sum is the number zero as soon as its polynomial is.

For this the monomials have to be a normal form themselves: their keys stand in increasing order,
so that no two of them have the same exponents.

The names of variables are arbitrary here.  Atoms are told apart by their text, and all atoms of a
polynomial are variables.

Main definitions:

* `Reckoner.Monomial.Proper` — monomials in normal form;
* `Reckoner.Monomial.polynomial`, `Reckoner.Collection.polynomial` — the polynomial of a monomial
  and of a sum of monomials;
* `Reckoner.Expr.toPolynomial` — the polynomial of an expression;
* `Reckoner.Expr.IsTerm`, `Reckoner.Expr.IsFlat` — terms and sums of terms;
* `Reckoner.Expr.Reduced` — sums of terms that are the number zero if their polynomial is.

Main results:

* `Reckoner.Monomial.Proper.ext` — a monomial in normal form is known by its exponents;
* `Reckoner.Collection.value_eq_zero` — **distinct monomials are linearly independent**;
* `Reckoner.Expr.IsFlat.collected?` — **collecting like terms leads to a reduced sum**.
-/

import Mathlib.Algebra.MvPolynomial.Funext
import Reckoner.Proofs.Polynomial
import Reckoner.Proofs.Collecting

set_option autoImplicit false

namespace Reckoner

open Arithmetic (isZero isOne isNegative integer? one)
open MvPolynomial (C X eval monomial)

variable {κ : Type} [Number κ]

theorem isZero_iff_value [ExactNumber κ] {c : κ} : isZero c = true ↔ Number.value c = 0 := by
  rw [isZero_iff (K := ℚ), Expr.valueIn_rat]

theorem isOne_iff_value [ExactNumber κ] {c : κ} : isOne c = true ↔ Number.value c = 1 := by
  rw [isOne_iff (K := ℚ), Expr.valueIn_rat]

/-! ### Monomials -/

namespace Monomial

variable {m m' : Monomial} {key : String} {n : ℤ} {p : String × ℤ}

/-- A monomial in normal form: the keys stand in increasing order, with positive exponents. -/
structure Proper (m : Monomial) : Prop where
  /-- The keys increase. -/
  increasing : m.Pairwise fun p q => p.1 < q.1
  /-- The exponents are positive. -/
  positive : ∀ p ∈ m, 0 < p.2

theorem proper_nil : Proper [] := ⟨.nil, by simp⟩

theorem proper_cons : Proper (p :: m) ↔ (∀ q ∈ m, p.1 < q.1) ∧ 0 < p.2 ∧ Proper m := by
  constructor
  · rintro ⟨hi, hp⟩
    obtain ⟨hfirst, hi⟩ := List.pairwise_cons.1 hi
    obtain ⟨hpos, hp⟩ := List.forall_mem_cons.1 hp
    exact ⟨hfirst, hpos, hi, hp⟩
  · rintro ⟨hfirst, hpos, hi, hp⟩
    exact ⟨List.pairwise_cons.2 ⟨hfirst, hi⟩, List.forall_mem_cons.2 ⟨hpos, hp⟩⟩

/-- A power is inserted in its place. -/
theorem Proper.times (hm : m.Proper) (key : String) (hn : 0 < n) : (m.times key n).Proper := by
  induction m with
  | nil => exact proper_cons.2 ⟨by simp, hn, proper_nil⟩
  | cons p m ih =>
      obtain ⟨k, j⟩ := p
      obtain ⟨hfirst, hpos, hrest⟩ := proper_cons.1 hm
      simp only [Monomial.times]
      split
      · exact proper_cons.2 ⟨hfirst, Int.add_pos hpos hn, hrest⟩
      · rename_i hne
        split
        · rename_i hlt
          refine proper_cons.2 ⟨fun q hq => ?_, hn, hm⟩
          rcases List.mem_cons.1 hq with rfl | hq
          · exact hlt
          · exact String.lt_trans hlt (hfirst q hq)
        · rename_i hlt
          refine proper_cons.2 ⟨fun q hq => ?_, hpos, ih hrest⟩
          rcases Collection.mem_times hq with hq | ⟨hq, -⟩
          · exact hfirst q hq
          · exact hq ▸ Std.lt_of_le_of_ne (String.not_lt.1 hlt) (Ne.symm hne)

/-- The exponents of the variables. -/
noncomputable def exponents (m : Monomial) : String →₀ ℕ :=
  (m.map fun p => Finsupp.single p.1 p.2.toNat).sum

@[simp] theorem exponents_nil : exponents [] = 0 := rfl

@[simp] theorem exponents_cons (p : String × ℤ) (m : Monomial) :
    exponents (p :: m) = Finsupp.single p.1 p.2.toNat + exponents m := by
  simp [exponents]

theorem exponents_of_forall_ne (h : ∀ p ∈ m, p.1 ≠ key) : m.exponents key = 0 := by
  induction m with
  | nil => rfl
  | cons p m ih =>
      obtain ⟨hp, hm⟩ := List.forall_mem_cons.1 h
      simp [ih hm, hp]

/-- The powers in a monomial are its exponents. -/
theorem Proper.mem_iff (hm : m.Proper) : p ∈ m ↔ 0 < p.2 ∧ m.exponents p.1 = p.2.toNat := by
  induction m with
  | nil =>
      have : 0 < p.2 → 0 ≠ p.2.toNat := by omega
      simpa using this
  | cons q m ih =>
      obtain ⟨hfirst, hpos, hrest⟩ := proper_cons.1 hm
      rw [List.mem_cons, ih hrest, exponents_cons, Finsupp.add_apply]
      by_cases hkey : q.1 = p.1
      · have habsent : exponents m p.1 = 0 := by
          refine exponents_of_forall_ne fun r hr heq => String.lt_irrefl r.1 ?_
          have := hfirst r hr
          rwa [hkey, ← heq] at this
        rw [habsent, hkey, Finsupp.single_eq_same, Nat.add_zero, Prod.ext_iff]
        constructor
        · rintro (⟨-, h⟩ | ⟨h, h'⟩)
          · exact ⟨h ▸ hpos, congrArg _ h.symm⟩
          · omega
        · rintro ⟨h, h'⟩
          exact .inl ⟨hkey.symm, by omega⟩
      · rw [Finsupp.single_eq_of_ne (Ne.symm hkey), Nat.zero_add]
        exact or_iff_right fun h => hkey (congrArg Prod.fst h.symm)

/-- A monomial in normal form is known by its exponents. -/
theorem Proper.ext (hm : m.Proper) (hm' : m'.Proper) (h : m.exponents = m'.exponents) :
    m = m' := by
  have : Std.Irrefl fun p q : String × ℤ => p.1 < q.1 := ⟨fun p => String.lt_irrefl p.1⟩
  have : Std.Antisymm fun p q : String × ℤ => p.1 < q.1 :=
    ⟨fun _ _ h h' => absurd h' (String.lt_asymm h)⟩
  refine hm.increasing.eq_of_mem_iff hm'.increasing fun p => ?_
  rw [hm.mem_iff, hm'.mem_iff, h]

/-- The polynomial of a monomial. -/
noncomputable def polynomial (m : Monomial) : MvPolynomial String ℚ := monomial m.exponents 1

@[simp] theorem polynomial_nil : polynomial [] = 1 := rfl

@[simp] theorem polynomial_cons (p : String × ℤ) (m : Monomial) :
    polynomial (p :: m) = X p.1 ^ p.2.toNat * polynomial m := by
  rw [polynomial, exponents_cons, polynomial, MvPolynomial.X_pow_eq_monomial,
    MvPolynomial.monomial_mul, one_mul]

@[simp] theorem eval_polynomial (ρ : String → ℚ) (m : Monomial) :
    eval ρ m.polynomial = m.value ρ := by
  induction m with
  | nil => simp
  | cons p m ih => simp [ih]

theorem Proper.polynomial_times (hm : m.Proper) (key : String) (hn : 0 < n) :
    (m.times key n).polynomial = m.polynomial * X key ^ n.toNat :=
  MvPolynomial.funext fun ρ => by simp [times_value key hm.positive hn]

end Monomial

/-! ### Sums of monomials -/

namespace Collection

variable {l : List (Monomial × κ)} {m : Monomial} {c : κ}

/-- The polynomial of a sum of monomials. -/
noncomputable def polynomial (l : List (Monomial × κ)) : MvPolynomial String ℚ :=
  (l.map fun t => C (Number.value t.2) * t.1.polynomial).sum

@[simp] theorem polynomial_nil : polynomial ([] : List (Monomial × κ)) = 0 := rfl

@[simp] theorem polynomial_cons (t : Monomial × κ) (l : List (Monomial × κ)) :
    polynomial (t :: l) = C (Number.value t.2) * t.1.polynomial + polynomial l := by
  simp [polynomial]

@[simp] theorem eval_polynomial (ρ : String → ℚ) (l : List (Monomial × κ)) :
    eval ρ (polynomial l) = total ρ l := by
  induction l with
  | nil => simp
  | cons t l ih => simp [ih]

theorem polynomial_accumulate [ExactNumber κ] (m : Monomial) (c : κ) (l : List (Monomial × κ)) :
    polynomial (accumulate m c l) = polynomial l + C (Number.value c) * m.polynomial :=
  MvPolynomial.funext fun ρ => by simp [total_accumulate]

theorem polynomial_ordered [ExactNumber κ] (s : Collection κ) :
    polynomial s.ordered = polynomial s.sums :=
  MvPolynomial.funext fun ρ => by
    simpa using (ordered_total (ρ := ρ) (ω := fun _ => 0) (τ := fun _ => 0) s).1

theorem coeff_polynomial_of_notMem (hm : m.Proper) (hl : ∀ t ∈ l, t.1.Proper)
    (h : m ∉ l.map Prod.fst) : (polynomial l).coeff m.exponents = 0 := by
  induction l with
  | nil => simp
  | cons t l ih =>
      obtain ⟨ht, hl⟩ := List.forall_mem_cons.1 hl
      rw [List.map_cons, List.mem_cons, not_or] at h
      have hne : t.1.exponents ≠ m.exponents := fun heq => h.1 (hm.ext ht heq.symm)
      rw [polynomial_cons, MvPolynomial.coeff_add, ih hl h.2, MvPolynomial.coeff_C_mul,
        Monomial.polynomial, MvPolynomial.coeff_monomial, if_neg hne, mul_zero, add_zero]

/-- **Distinct monomials are linearly independent.** -/
theorem value_eq_zero (hnodup : (l.map Prod.fst).Nodup) (hl : ∀ t ∈ l, t.1.Proper)
    (h : polynomial l = 0) : ∀ t ∈ l, Number.value t.2 = 0 := by
  induction l with
  | nil => simp
  | cons t l ih =>
      obtain ⟨ht, hl⟩ := List.forall_mem_cons.1 hl
      rw [List.map_cons, List.nodup_cons] at hnodup
      -- no other term has the exponents of the first
      have hfirst : Number.value t.2 = 0 := by
        have := congrArg (MvPolynomial.coeff t.1.exponents) h
        rwa [polynomial_cons, MvPolynomial.coeff_add, coeff_polynomial_of_notMem ht hl hnodup.1,
          MvPolynomial.coeff_C_mul, Monomial.polynomial, MvPolynomial.coeff_monomial, if_pos rfl,
          mul_one, add_zero, MvPolynomial.coeff_zero] at this
      rw [polynomial_cons, hfirst, C.map_zero, zero_mul, zero_add] at h
      exact List.forall_mem_cons.2 ⟨hfirst, ih hnodup.2 hl h⟩

end Collection

/-! ### Polynomials of expressions -/

namespace Expr

/-- The polynomial of an expression, with a number for a number and an indeterminate for a
variable.  Quotients, functions and powers with other exponents than natural numbers are left
out. -/
noncomputable def toPolynomial : Expr κ → MvPolynomial String ℚ
  | .var x => X x
  | .const c => C (Number.value c)
  | .add a b => a.toPolynomial + b.toPolynomial
  | .sub a b => a.toPolynomial - b.toPolynomial
  | .mul a b => a.toPolynomial * b.toPolynomial
  | .pow a (.const c) => a.toPolynomial ^ (Number.value c).num.toNat
  | _ => 0

variable {least d d' n i j : ℕ} {a b e : Expr κ} {c : κ} {x : String}

@[simp] theorem toPolynomial_var (x : String) : toPolynomial (.var x : Expr κ) = X x := rfl

@[simp] theorem toPolynomial_const (c : κ) : toPolynomial (.const c) = C (Number.value c) := rfl

@[simp] theorem toPolynomial_add (a b : Expr κ) :
    toPolynomial (.add a b) = a.toPolynomial + b.toPolynomial := rfl

@[simp] theorem toPolynomial_sub (a b : Expr κ) :
    toPolynomial (.sub a b) = a.toPolynomial - b.toPolynomial := rfl

@[simp] theorem toPolynomial_mul (a b : Expr κ) :
    toPolynomial (.mul a b) = a.toPolynomial * b.toPolynomial := rfl

theorem toPolynomial_pow (a : Expr κ) (hc : Number.value c = n) :
    toPolynomial (.pow a (.const c)) = a.toPolynomial ^ n := by
  rw [toPolynomial, hc, Rat.num_natCast, Int.toNat_natCast]

@[simp] theorem toPolynomial_ofInt [ExactNumber κ] (k : ℤ) :
    toPolynomial (ofInt k : Expr κ) = C (k : ℚ) := by
  rw [ofInt, toPolynomial_const, ExactNumber.value_ofInt]

/-! ### Terms -/

/-- A product of numbers, variables and powers of these, with its degree bounded.  Exponents are
`least` at least, and no power of a number is left if that is positive. -/
inductive IsTerm (least : ℕ) : ℕ → Expr κ → Prop
  | const {d : ℕ} (c : κ) : IsTerm least d (.const c)
  | var {d : ℕ} (x : String) : 1 ≤ d → IsTerm least d (.var x)
  | power {d n : ℕ} {c : κ} (x : String) : Number.value c = n → least ≤ n → n ≤ d →
      IsTerm least d (.pow (.var x) (.const c))
  | constPower {d n : ℕ} {c : κ} (b : κ) : Number.value c = n → least = 0 →
      IsTerm least d (.pow (.const b) (.const c))
  | mul {a b : Expr κ} {i j d : ℕ} : IsTerm least i a → IsTerm least j b → i + j ≤ d →
      IsTerm least d (.mul a b)

/-- A sum of terms with positive exponents. -/
inductive IsFlat (d : ℕ) : Expr κ → Prop
  | term {e : Expr κ} : IsTerm 1 d e → IsFlat d e
  | add {a b : Expr κ} : IsFlat d a → IsFlat d b → IsFlat d (.add a b)
  | sub {a b : Expr κ} : IsFlat d a → IsFlat d b → IsFlat d (.sub a b)

/-- A sum of terms that is the number zero if its polynomial is zero. -/
structure Reduced (d : ℕ) (e : Expr κ) : Prop where
  /-- It is a sum of terms. -/
  flat : IsFlat d e
  /-- It is zero if its polynomial is. -/
  eq_zero : e.toPolynomial = 0 → e = ofInt 0

theorem IsTerm.mono (h : IsTerm least d e) (hd : d ≤ d') : IsTerm least d' e := by
  cases h with
  | const c => exact .const c
  | var x h1 => exact .var x (h1.trans hd)
  | power x hc hn hle => exact .power x hc hn (hle.trans hd)
  | constPower b hc hleast => exact .constPower b hc hleast
  | mul ha hb hle => exact .mul ha hb (hle.trans hd)

theorem IsTerm.isSum (h : IsTerm least d e) : e.isSum = false := by
  cases h <;> rfl

/-- The factors of a term, with their degrees together bounded. -/
inductive TermFactors : ℕ → List (Expr κ) → Prop
  | nil {d : ℕ} : TermFactors d []
  | cons {e : Expr κ} {es : List (Expr κ)} {i j d : ℕ} : IsTerm 1 i e → TermFactors j es →
      i + j ≤ d → TermFactors d (e :: es)

variable [ExactNumber κ]

omit [ExactNumber κ] in
theorem TermFactors.foldl_mul {es : List (Expr κ)} (h : TermFactors j es) (he : IsTerm 1 i e) :
    IsTerm 1 (i + j) (es.foldl .mul e) ∧
      (es.foldl .mul e).toPolynomial = e.toPolynomial * (es.map toPolynomial).prod := by
  induction h generalizing e i with
  | nil => exact ⟨he.mono (Nat.le_add_right _ _), by simp⟩
  | cons hf _ hle ih =>
      obtain ⟨hterm, hpoly⟩ := ih (he.mul hf le_rfl)
      refine ⟨hterm.mono (by omega), ?_⟩
      rw [List.foldl_cons, hpoly, toPolynomial_mul, List.map_cons, List.prod_cons, mul_assoc]

/-- The factors of a term are multiplied from left to right. -/
theorem TermFactors.product {es : List (Expr κ)} (h : TermFactors d es) :
    IsTerm 1 d (Collection.product es) ∧
      (Collection.product es).toPolynomial = (es.map toPolynomial).prod := by
  cases h with
  | nil => exact ⟨.const _, by simp [Collection.product, one, ExactNumber.value_ofInt]⟩
  | cons he hes hle =>
      obtain ⟨hterm, hpoly⟩ := hes.foldl_mul he
      refine ⟨hterm.mono hle, ?_⟩
      rw [List.map_cons, List.prod_cons]
      exact hpoly

/-- The power of a variable in a term. -/
theorem atomPower_power (x : String) (hc : Number.value c = n) (hn : 1 ≤ n) :
    atomPower (.pow (.var x) (.const c)) = (.var x, min (n : ℤ) maxExponent) := by
  have hinteger : integer? c = some (n : ℤ) := integer?_eq_some_iff.2 (by simpa using hc)
  have hpos : n ≠ 0 := by omega
  simp [atomPower, hinteger, hpos, isConst]

/-- All atoms of a term are variables. -/
theorem IsTerm.atomsOf (h : IsTerm 1 d e) : AtomsOf (fun a => ∃ x, a = .var x) e.factors := by
  induction h with
  | const c => simp [factors, AtomsOf, isConst]
  | var x _ => simp [factors, AtomsOf, atomPower]
  | power x hc hn _ => simp [factors, AtomsOf, atomPower_power x hc hn]
  | constPower b hc h => exact absurd h one_ne_zero
  | mul _ _ _ iha ihb =>
      intro f hf
      exact (List.mem_append.1 hf).elim (iha f) (ihb f)

/-- **The factors of a term are gathered in its monomial and its coefficient.** -/
theorem IsTerm.addFactors {s : Collection κ} {m : Monomial} (h : IsTerm 1 d e)
    (hd : d < degreeBound) (hm : m.Proper) (rest : List (Expr κ)) :
    ∃ s' c' m', Collection.addFactors s c m (e.factors ++ rest) =
        Collection.addFactors s' c' m' rest ∧ m'.Proper ∧
      m'.weight (fun _ => 1) ≤ m.weight (fun _ => 1) + d ∧
      C (Number.value c') * m'.polynomial =
        C (Number.value c) * m.polynomial * e.toPolynomial := by
  induction h generalizing s c m rest with
  | const b =>
      refine ⟨s, c * b, m, rfl, hm, Nat.le_add_right _ _, ?_⟩
      rw [ExactNumber.value_mul, C.map_mul, toPolynomial_const]
      ring
  | var x h1 =>
      refine ⟨_, c, m.times x 1, rfl, hm.times x Int.one_pos, ?_, ?_⟩
      · rw [Monomial.times_weight x hm.positive Int.one_pos]
        exact Nat.add_le_add_left h1 _
      · rw [hm.polynomial_times x Int.one_pos, toPolynomial_var]
        simp only [Int.toNat_one, pow_one, mul_assoc]
  | @power d n b x hc hn hle =>
      have hmin : min (n : ℤ) maxExponent = n := by
        refine min_eq_left ?_
        unfold maxExponent
        unfold degreeBound at hd
        omega
      have hpos : 0 < (n : ℤ) := by omega
      refine ⟨s.remember x (.var x), c, m.times x n, ?_, hm.times x hpos, ?_, ?_⟩
      · have hfactors : factors (.pow (.var x) (.const b)) = [.pow (.var x) (.const b)] := rfl
        rw [hfactors, List.singleton_append, Collection.addFactors_cons rfl,
          atomPower_power x hc hn, hmin]
        rfl
      · rw [Monomial.times_weight x hm.positive hpos, Int.toNat_natCast]
        omega
      · rw [hm.polynomial_times x hpos, toPolynomial_pow _ hc, toPolynomial_var,
          Int.toNat_natCast, mul_assoc]
  | constPower b hc h => exact absurd h one_ne_zero
  | @mul a b i j d _ _ hle iha ihb =>
      obtain ⟨s₁, c₁, m₁, h₁, hm₁, hw₁, hp₁⟩ := iha (by omega) hm (b.factors ++ rest)
      obtain ⟨s₂, c₂, m₂, h₂, hm₂, hw₂, hp₂⟩ := ihb (by omega) hm₁ rest
      refine ⟨s₂, c₂, m₂, ?_, hm₂, by omega, ?_⟩
      · rw [factors, List.append_assoc, h₁, h₂]
      · rw [hp₂, hp₁, toPolynomial_mul, mul_assoc]

/-! ### Terms of a sum -/

theorem IsTerm.scaled (h : IsTerm 1 d e) (c : κ) :
    IsTerm 1 d (scaled c e) ∧
      (Expr.scaled c e).toPolynomial = C (Number.value c) * e.toPolynomial := by
  unfold Expr.scaled
  split
  · rename_i hone
    rw [isOne_iff_value] at hone
    exact ⟨h, by rw [hone, C.map_one, one_mul]⟩
  · exact ⟨.mul (.const c) h (Nat.zero_add d).le, rfl⟩

omit [ExactNumber κ] in
/-- A term is no sum, and is not multiplied out. -/
theorem IsTerm.terms_eq (h : IsTerm least d e) (he : e.isConst = false) (c : κ) :
    terms c e = [Expr.scaled c e] := by
  cases h with
  | const b => simp [isConst] at he
  | var x _ | power x _ _ _ | constPower b _ _ => simp [terms]
  | mul ha hb _ =>
      unfold Expr.terms
      split <;> simp [ha.isSum, hb.isSum]

/-- **The terms of a multiple of a sum of terms.** -/
theorem IsFlat.terms (h : IsFlat d e) (c : κ) :
    (∀ t ∈ terms c e, IsTerm 1 d t) ∧ terms c e ≠ [] ∧
      ((Expr.terms c e).map toPolynomial).sum = C (Number.value c) * e.toPolynomial := by
  induction h generalizing c with
  | @term e he =>
      cases hconst : e.isConst with
      | true =>
          obtain ⟨b, rfl⟩ := exists_const_of_isConst hconst
          refine ⟨by simpa [Expr.terms] using .const _, by simp [Expr.terms], ?_⟩
          simp [Expr.terms, ExactNumber.value_mul, mul_comm]
      | false =>
          obtain ⟨hterm, hpoly⟩ := he.scaled c
          rw [he.terms_eq hconst]
          exact ⟨by simpa using hterm, by simp, by simpa using hpoly⟩
  | add _ _ iha ihb =>
      obtain ⟨ha, hne, hpa⟩ := iha c
      obtain ⟨hb, -, hpb⟩ := ihb c
      refine ⟨List.forall_mem_append.2 ⟨ha, hb⟩, by simp [Expr.terms, hne], ?_⟩
      rw [Expr.terms, List.map_append, List.sum_append, hpa, hpb, toPolynomial_add, mul_add]
  | sub _ _ iha ihb =>
      obtain ⟨ha, hne, hpa⟩ := iha c
      obtain ⟨hb, -, hpb⟩ := ihb (-c)
      refine ⟨List.forall_mem_append.2 ⟨ha, hb⟩, by simp [Expr.terms, hne], ?_⟩
      rw [Expr.terms, List.map_append, List.sum_append, hpa, hpb, toPolynomial_sub,
        ExactNumber.value_neg, map_neg, neg_mul, ← sub_eq_add_neg, mul_sub]

end Expr

/-! ### Collecting -/

namespace Collection

open Expr (IsTerm TermFactors IsFlat Reduced toPolynomial)

variable [ExactNumber κ] {s : Collection κ} {d : ℕ} {m : Monomial} {c : κ} {es : List (Expr κ)}
variable {P : MvPolynomial String ℚ}

/-- The monomials of a collection are in normal form and of bounded degree. -/
def ProperSums (d : ℕ) (s : Collection κ) : Prop :=
  ∀ t ∈ s.sums, t.1.Proper ∧ t.1.weight (fun _ => 1) ≤ d

theorem ProperSums.addTerm {e : Expr κ} (hs : s.ProperSums d) (he : IsTerm 1 d e)
    (hd : d < degreeBound) :
    (s.addTerm e).ProperSums d ∧
      polynomial (s.addTerm e).sums = polynomial s.sums + e.toPolynomial := by
  obtain ⟨s', c, m, hfactors, hm, hw, hp⟩ :=
    he.addFactors (s := s) (c := one) hd Monomial.proper_nil []
  rw [List.append_nil, Collection.addFactors] at hfactors
  constructor
  · intro t ht
    rw [addTerm_sums, hfactors] at ht
    rcases mem_accumulate ht with h | h
    · rw [h]
      exact ⟨hm, by simpa using hw⟩
    · exact hs t h
  · rw [addTerm_sums, hfactors, polynomial_accumulate, hp]
    simp [one, ExactNumber.value_ofInt]

/-- A collection of terms has the polynomial of their sum. -/
theorem properSums_ofTerms (hes : ∀ e ∈ es, IsTerm 1 d e) (hd : d < degreeBound) :
    (ofTerms es).ProperSums d ∧
      polynomial (ofTerms es).sums = (es.map toPolynomial).sum := by
  have key (s : Collection κ) (hs : s.ProperSums d) : (es.foldl addTerm s).ProperSums d ∧
      polynomial (es.foldl addTerm s).sums = polynomial s.sums + (es.map toPolynomial).sum := by
    induction es generalizing s with
    | nil => exact ⟨hs, by simp⟩
    | cons e es ih =>
        obtain ⟨he, hes⟩ := List.forall_mem_cons.1 hes
        obtain ⟨hs', hp⟩ := hs.addTerm he hd
        obtain ⟨hproper, hpoly⟩ := ih hes _ hs'
        refine ⟨hproper, ?_⟩
        rw [List.foldl_cons, hpoly, hp, List.map_cons, List.sum_cons, add_assoc]
  simpa [ofTerms, empty] using key empty (by simp [ProperSums, empty])

/-! ### Rebuilt sums -/

omit [ExactNumber κ] in
/-- The atom of a key is the variable of that name. -/
theorem atom_eq_var {p : String × ℤ} (hs : s.Over fun a => ∃ x, a = .var x) (hm : s.Knows m)
    (hp : p ∈ m) : s.atom p.1 = .var p.1 := by
  obtain ⟨htext, x, hx⟩ := hs.atom hm hp
  rw [hx] at htext ⊢
  rw [← htext]
  rfl

theorem isTerm_powerOf {p : String × ℤ} (hs : s.Over fun a => ∃ x, a = .var x) (hm : s.Knows m)
    (hp : p ∈ m) : IsTerm 1 p.2.toNat (s.powerOf p.1 p.2) ∧
      (s.powerOf p.1 p.2).toPolynomial = X p.1 ^ p.2.toNat := by
  have hpos := (hm p hp).1
  unfold powerOf
  rw [atom_eq_var hs hm hp]
  split
  · rename_i hone
    exact ⟨.var p.1 (by omega), by simp [hone]⟩
  · have hvalue : Number.value (Arithmetic.ofInt p.2 : κ) = (p.2.toNat : ℕ) := by
      rw [ExactNumber.value_ofInt, ← Int.cast_natCast, Int.toNat_of_nonneg hpos.le]
    exact ⟨.power p.1 hvalue (by omega) le_rfl, Expr.toPolynomial_pow _ hvalue⟩

/-- The powers of a monomial are the factors of a term. -/
theorem termFactors_powers (hs : s.Over fun a => ∃ x, a = .var x) (hm : s.Knows m) :
    TermFactors (m.weight fun _ => 1) (m.map fun p => s.powerOf p.1 p.2) ∧
      ((m.map fun p => s.powerOf p.1 p.2).map toPolynomial).prod = m.polynomial := by
  induction m with
  | nil => exact ⟨.nil, rfl⟩
  | cons p m ih =>
      obtain ⟨hpower, hp⟩ := isTerm_powerOf hs hm List.mem_cons_self
      obtain ⟨hfactors, hpoly⟩ := ih fun q hq => hm q (List.mem_cons_of_mem _ hq)
      rw [List.map_cons, List.map_cons, List.prod_cons, hp, hpoly, Monomial.polynomial_cons,
        Monomial.weight_cons, mul_one]
      exact ⟨.cons hpower hfactors le_rfl, rfl⟩

/-- The term of a monomial. -/
theorem isTerm_term (hs : s.Over fun a => ∃ x, a = .var x) (hm : s.Knows m)
    (hd : m.weight (fun _ => 1) ≤ d) (c : κ) :
    IsTerm 1 d (s.term m c) ∧
      (s.term m c).toPolynomial = C (Number.value c) * m.polynomial := by
  obtain ⟨hfactors, hpowers⟩ := termFactors_powers hs hm
  unfold term
  split
  · rename_i hempty
    rw [List.isEmpty_iff.1 hempty]
    exact ⟨.const c, by simp⟩
  · dsimp only
    split
    · rename_i hone
      rw [isOne_iff_value] at hone
      obtain ⟨hterm, hpoly⟩ := hfactors.product
      exact ⟨hterm.mono hd, by rw [hpoly, hpowers, hone, C.map_one, one_mul]⟩
    · obtain ⟨hterm, hpoly⟩ := (hfactors.cons (.const (d := 0) c) (Nat.zero_add _).le).product
      rw [List.map_cons, List.prod_cons, hpowers] at hpoly
      exact ⟨hterm.mono hd, hpoly⟩

/-- A collection of terms: its atoms are variables, and its monomials are distinct. -/
structure OfVariables (d : ℕ) (s : Collection κ) : Prop where
  /-- All atoms are variables. -/
  atoms : s.Over fun a => ∃ x, a = .var x
  /-- Every monomial has one coefficient. -/
  distinct : (s.sums.map Prod.fst).Nodup
  /-- The monomials are in normal form. -/
  monomials : s.ProperSums d

theorem ofVariables_ofTerms (hes : ∀ e ∈ es, IsTerm 1 d e) (hd : d < degreeBound) :
    (ofTerms es).OfVariables d where
  atoms := ofTerms_over fun e he => (hes e he).atomsOf
  distinct := nodup_ofTerms es
  monomials := (properSums_ofTerms hes hd).1

theorem foldl_appendTerm {l : List (Monomial × κ)} {e : Expr κ}
    (hs : s.Over fun a => ∃ x, a = .var x)
    (hl : ∀ t ∈ l, s.Knows t.1 ∧ t.1.weight (fun _ => 1) ≤ d) (he : IsFlat d e) :
    IsFlat d (l.foldl s.appendTerm e) ∧
      (l.foldl s.appendTerm e).toPolynomial = e.toPolynomial + polynomial l := by
  induction l generalizing e with
  | nil => simpa using he
  | cons t l ih =>
      obtain ⟨⟨hknown, hw⟩, hl⟩ := List.forall_mem_cons.1 hl
      have hstep : IsFlat d (s.appendTerm e t) ∧ (s.appendTerm e t).toPolynomial =
          e.toPolynomial + C (Number.value t.2) * t.1.polynomial := by
        unfold appendTerm
        split
        · obtain ⟨hterm, hpoly⟩ := isTerm_term hs hknown hw (-t.2)
          refine ⟨he.sub (.term hterm), ?_⟩
          rw [Expr.toPolynomial_sub, hpoly, ExactNumber.value_neg, map_neg, neg_mul,
            sub_neg_eq_add]
        · obtain ⟨hterm, hpoly⟩ := isTerm_term hs hknown hw t.2
          exact ⟨he.add (.term hterm), by rw [Expr.toPolynomial_add, hpoly]⟩
      obtain ⟨hflat, hpoly⟩ := ih hl hstep.1
      rw [List.foldl_cons, hpoly, hstep.2, polynomial_cons, add_assoc]
      exact ⟨hflat, rfl⟩

/-- **The expression rebuilt from a collection is reduced**, and has its polynomial. -/
theorem OfVariables.toExpr (hs : s.OfVariables d) :
    Reduced d s.toExpr ∧ s.toExpr.toPolynomial = polynomial s.sums := by
  have hmem {t : Monomial × κ} (ht : t ∈ s.ordered) := mem_sums_of_mem_ordered ht
  have known : ∀ t ∈ s.ordered, s.Knows t.1 ∧ t.1.weight (fun _ => 1) ≤ d :=
    fun t ht => ⟨hs.atoms.sums t (hmem ht), (hs.monomials t (hmem ht)).2⟩
  have distinct : (s.ordered.map Prod.fst).Nodup :=
    (ordered_total (ρ := fun _ => (0 : ℚ)) (ω := fun _ => 0) (τ := fun _ => 0) s).2.2.2 hs.distinct
  have nonzero : ∀ t ∈ s.ordered, Number.value t.2 ≠ 0 := by
    intro t ht hzero
    have := List.of_mem_filter (List.mem_mergeSort.1 ht)
    rw [isZero_iff_value.2 hzero] at this
    simp at this
  rw [← polynomial_ordered s]
  have independent := value_eq_zero distinct fun t ht => (hs.monomials t (hmem ht)).1
  unfold Collection.toExpr
  split
  · rename_i ho
    rw [ho]
    exact ⟨⟨.term (.const _), fun _ => rfl⟩, by simp⟩
  · rename_i t ts ho
    rw [ho] at known nonzero independent ⊢
    obtain ⟨⟨hknown, hw⟩, hts⟩ := List.forall_mem_cons.1 known
    obtain ⟨hterm, hp⟩ := isTerm_term hs.atoms hknown hw t.2
    obtain ⟨hflat, hpoly⟩ := foldl_appendTerm hs.atoms hts (.term hterm)
    rw [hp, ← polynomial_cons] at hpoly
    refine ⟨⟨hflat, fun hzero => ?_⟩, hpoly⟩
    rw [hpoly] at hzero
    exact absurd (independent hzero t List.mem_cons_self) (nonzero t List.mem_cons_self)

end Collection

/-- **Collecting like terms leads to a reduced sum.** -/
theorem Expr.IsFlat.collected? [ExactNumber κ] {a b : Expr κ} {d : ℕ} (ha : IsFlat d a)
    (hb : IsFlat d b) (hd : d < degreeBound) :
    ∃ e, (Expr.add a b).collected? = some e ∧ Reduced d e ∧
      e.toPolynomial = a.toPolynomial + b.toPolynomial := by
  obtain ⟨hterms, -, hsum⟩ := (ha.add hb).terms one
  obtain ⟨hreduced, hpoly⟩ := (Collection.ofVariables_ofTerms hterms hd).toExpr
  rw [(Collection.properSums_ofTerms hterms hd).2, hsum] at hpoly
  refine ⟨_, ?_, hreduced, by simpa [one, ExactNumber.value_ofInt] using hpoly⟩
  have hlength : ¬(Expr.terms one (.add a b)).length < 2 := by
    have := List.length_pos_iff.2 (ha.terms one).2.1
    have := List.length_pos_iff.2 (hb.terms one).2.1
    rw [Expr.terms, List.length_append]
    omega
  rw [Expr.collected?, if_neg hlength]

end Reckoner
