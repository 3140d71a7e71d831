/-
**Degrees.**

The exponent of an atom is cut down to `Reckoner.Expr.maxExponent`, so that an expression keeps its
value only while its degrees stay below that.  The degree of an expression depends on the values of
its exponents, and is taken under a scope.

When a sum of fractions is written over a common denominator, degrees grow by the degrees of the
denominators.  They are therefore measured apart: an expression is a fraction whose denominator
has at most the degree of all its denominators together, and whose numerator has at most that and
its own degree.  For a polynomial there is nothing to add.  Exponents and arguments of functions
are never brought over a denominator, and are always measured like polynomials.

The induction over simplification is about values and degrees together: `Reckoner.Expr.Graded` says
that an expression has a value, that its names are identifiers, and that its degrees are at most
some numbers, with all degrees inside it below the bound.  In simplified expressions, moreover,
only numbers have degree zero.

Main definitions:

* `Reckoner.Grading` — what the bound is for: degrees, or degrees over a common denominator;
* `Reckoner.Expr.degree`, `Reckoner.Expr.denominators` — the degree of an expression under a
  scope, and that of its denominators;
* `Reckoner.Expr.DegreesBounded` — all degrees in an expression are below the bound;
* `Reckoner.Expr.Graded` — value and degrees.

Main results:

* `Reckoner.Expr.Graded.of_hasValue` — **an expression with bounded degrees is graded by them**;
* `Reckoner.Expr.Graded.mono` — larger degrees below the bound will do;
* `Reckoner.Expr.Graded.inf` — so will the smaller of two.
-/

import Reckoner.Proofs.Meaning
import Reckoner.Proofs.UniqueText

set_option autoImplicit false

namespace Reckoner

/-! ### The bound -/

/-- All degrees are below this bound. -/
def degreeBound : ℕ := 2 ^ 31

theorem one_lt_degreeBound : 1 < degreeBound := Nat.one_lt_two_pow (by decide)

/-- What the bound is for. -/
inductive Grading
  /-- Degrees. -/
  | polynomial
  /-- Degrees over a common denominator. -/
  | fraction
deriving DecidableEq

namespace Grading

/-- The degree over a common denominator is the degree and that of the denominators. -/
def size : Grading → ℕ → ℕ → ℕ
  | polynomial, d, _ => d
  | fraction, d, q => d + q

/-- A degree and one of denominators that are below the bound. -/
def Admits (g : Grading) (d q : ℕ) : Prop := g.size d q < degreeBound

variable {g : Grading} {d d' q q' : ℕ}

theorem Admits.mono (h : g.Admits d' q') (hd : d ≤ d') (hq : q ≤ q') : g.Admits d q := by
  unfold Admits at h ⊢
  cases g with
  | polynomial => exact hd.trans_lt h
  | fraction => exact (Nat.add_le_add hd hq).trans_lt h

theorem Admits.lt (h : g.Admits d q) : d < degreeBound := by
  unfold Admits at h
  cases g with
  | polynomial => exact h
  | fraction => exact (Nat.le_add_right d q).trans_lt h

theorem admits_zero (g : Grading) : g.Admits 0 0 := by
  cases g <;> exact Nat.zero_lt_of_lt one_lt_degreeBound

theorem Admits.polynomial (h : g.Admits d q) : Grading.polynomial.Admits d q' := h.lt

end Grading

namespace Expr

variable {κ : Type} [Number κ] {K : Type} [Field K]

/-! ### The degree under a scope -/

open Classical in
/-- The integer that an exponent is equal to under a scope. -/
noncomputable def exponentAt (I : Functions K) (σ : Scope K) (b : Expr κ) : ℤ :=
  if h : ∃ n : ℤ, HasValue I σ b n then h.choose else 0

theorem exponentAt_eq [CharZero K] {I : Functions K} {σ : Scope K} {b : Expr κ} {n : ℤ}
    (h : HasValue I σ b n) : exponentAt I σ b = n := by
  have hex : ∃ m : ℤ, HasValue I σ b m := ⟨n, h⟩
  rw [exponentAt, dif_pos hex]
  exact Int.cast_injective (hex.choose_spec.unique h)

@[simp] theorem exponentAt_ofInt [CharZero K] [ExactNumber κ] (I : Functions K) (σ : Scope K)
    (n : ℤ) : exponentAt I σ (ofInt n : Expr κ) = n :=
  exponentAt_eq (.ofInt n)

/-- The total degree of an expression under a scope.  A number has degree zero, a variable and a
function have degree one, and a power whose exponent is more than a number has at least degree
one. -/
noncomputable def degree (I : Functions K) (σ : Scope K) : Expr κ → ℕ
  | .var _ | .apply _ _ => 1
  | .const _ => 0
  | .add a b | .sub a b => max (a.degree I σ) (b.degree I σ)
  | .mul a b | .div a b => a.degree I σ + b.degree I σ
  | .pow a b => max ((exponentAt I σ b).natAbs * a.degree I σ) (min 1 (b.degree I σ))

/-- The total degree of all denominators of an expression under a scope. -/
noncomputable def denominators (I : Functions K) (σ : Scope K) : Expr κ → ℕ
  | .var _ | .apply _ _ | .const _ => 0
  | .add a b | .sub a b | .mul a b => a.denominators I σ + b.denominators I σ
  | .div a b => a.denominators I σ + b.denominators I σ + b.degree I σ
  | .pow a b => (exponentAt I σ b).natAbs * a.denominators I σ +
      (-exponentAt I σ b).toNat * a.degree I σ

/-- All degrees in an expression are below the bound. -/
def DegreesBounded (I : Functions K) (σ : Scope K) (g : Grading) (e : Expr κ) : Prop :=
  g.Admits (e.degree I σ) (e.denominators I σ) ∧
    match e with
    | .var _ | .const _ => True
    | .add a b | .sub a b | .mul a b | .div a b =>
        a.DegreesBounded I σ g ∧ b.DegreesBounded I σ g
    | .pow a b => a.DegreesBounded I σ g ∧ b.DegreesBounded I σ .polynomial
    | .apply _ a => a.DegreesBounded I σ .polynomial

@[simp] theorem degree_ofInt (I : Functions K) (σ : Scope K) (n : ℤ) :
    (ofInt n : Expr κ).degree I σ = 0 := rfl

@[simp] theorem denominators_ofInt (I : Functions K) (σ : Scope K) (n : ℤ) :
    (ofInt n : Expr κ).denominators I σ = 0 := rfl

@[simp] theorem degreesBounded_ofInt (I : Functions K) (σ : Scope K) (g : Grading) (n : ℤ) :
    (ofInt n : Expr κ).DegreesBounded I σ g := by
  rw [ofInt, DegreesBounded]
  exact ⟨g.admits_zero, trivial⟩

/-! ### Value and degrees -/

/-- **An expression of named variables has a value, and its degree and that of its denominators
are at most some numbers.**  All degrees inside are below the bound, and those of operations are
`least` at least. -/
inductive Graded (least : ℕ) (I : Functions K) (σ : Scope K) :
    Grading → Expr κ → K → ℕ → ℕ → Prop
  | var {g : Grading} {x : String} {v : K} {d q : ℕ} : IsName x → σ x = some v → 1 ≤ d →
      g.Admits d q → Graded least I σ g (.var x) v d q
  | const {g : Grading} (c : κ) {d q : ℕ} : g.Admits d q →
      Graded least I σ g (.const c) (valueIn K c) d q
  | add {g : Grading} {a b : Expr κ} {u v : K} {i j k l d q : ℕ} : Graded least I σ g a u i k →
      Graded least I σ g b v j l → max i j ≤ d → k + l ≤ q → least ≤ d → g.Admits d q →
      Graded least I σ g (.add a b) (u + v) d q
  | sub {g : Grading} {a b : Expr κ} {u v : K} {i j k l d q : ℕ} : Graded least I σ g a u i k →
      Graded least I σ g b v j l → max i j ≤ d → k + l ≤ q → least ≤ d → g.Admits d q →
      Graded least I σ g (.sub a b) (u - v) d q
  | mul {g : Grading} {a b : Expr κ} {u v : K} {i j k l d q : ℕ} : Graded least I σ g a u i k →
      Graded least I σ g b v j l → i + j ≤ d → k + l ≤ q → least ≤ d → g.Admits d q →
      Graded least I σ g (.mul a b) (u * v) d q
  | div {g : Grading} {a b : Expr κ} {u v : K} {i j k l d q : ℕ} : Graded least I σ g a u i k →
      Graded least I σ g b v j l → v ≠ 0 → i + j ≤ d → k + l + j ≤ q → least ≤ d →
      g.Admits d q → Graded least I σ g (.div a b) (u / v) d q
  | pow {g : Grading} {a b : Expr κ} {u : K} {n : ℤ} {i j k l d q : ℕ} :
      Graded least I σ g a u i k → Graded least I σ .polynomial b n j l → u ≠ 0 ∨ 0 ≤ n →
      n.natAbs * i ≤ d → min 1 j ≤ d → n.natAbs * k + (-n).toNat * i ≤ q → least ≤ d →
      g.Admits d q → Graded least I σ g (.pow a b) (u ^ n) d q
  | apply {g : Grading} {f : Elementary} {a : Expr κ} {u v : K} {i k d q : ℕ} :
      Graded least I σ .polynomial a u i k → I f u = some v → 1 ≤ d → g.Admits d q →
      Graded least I σ g (.apply f a) v d q

variable {least : ℕ} {I : Functions K} {σ : Scope K} {g : Grading}
variable {e : Expr κ} {v : K} {d d' q q' : ℕ}

namespace Graded

/-- Larger degrees below the bound will do. -/
theorem mono (h : Graded least I σ g e v d q) (hd : d ≤ d') (hq : q ≤ q') (hb : g.Admits d' q') :
    Graded least I σ g e v d' q' := by
  cases h with
  | var hx hv h1 _ => exact .var hx hv (h1.trans hd) hb
  | const c _ => exact .const c hb
  | add ha hb' hj hl h1 _ => exact .add ha hb' (hj.trans hd) (hl.trans hq) (h1.trans hd) hb
  | sub ha hb' hj hl h1 _ => exact .sub ha hb' (hj.trans hd) (hl.trans hq) (h1.trans hd) hb
  | mul ha hb' hj hl h1 _ => exact .mul ha hb' (hj.trans hd) (hl.trans hq) (h1.trans hd) hb
  | div ha hb' hv hj hl h1 _ =>
      exact .div ha hb' hv (hj.trans hd) (hl.trans hq) (h1.trans hd) hb
  | pow ha hb' hn hi hj hl h1 _ =>
      exact .pow ha hb' hn (hi.trans hd) (hj.trans hd) (hl.trans hq) (h1.trans hd) hb
  | apply ha hf h1 _ => exact .apply ha hf (h1.trans hd) hb

theorem admits (h : Graded least I σ g e v d q) : g.Admits d q := by
  cases h <;> assumption

/-- What is graded has its value. -/
theorem hasValue (h : Graded least I σ g e v d q) : HasValue I σ e v := by
  induction h with
  | var _ hv _ _ => exact .var hv
  | const c _ => exact .const c
  | add _ _ _ _ _ _ iha ihb => exact .add iha ihb
  | sub _ _ _ _ _ _ iha ihb => exact .sub iha ihb
  | mul _ _ _ _ _ _ iha ihb => exact .mul iha ihb
  | div _ _ hv _ _ _ _ iha ihb => exact .div iha ihb hv
  | pow _ _ hn _ _ _ _ _ iha ihb => exact .pow iha ihb hn
  | apply _ hf _ _ ih => exact .apply ih hf

/-- What is graded has identifiers as names. -/
theorem named (h : Graded least I σ g e v d q) : Named e := by
  induction h with
  | var hx _ _ _ => exact onlyNames_var.2 hx
  | const c _ => exact onlyNames_const c
  | add _ _ _ _ _ _ iha ihb => exact onlyNames_add.2 ⟨iha, ihb⟩
  | sub _ _ _ _ _ _ iha ihb => exact onlyNames_sub.2 ⟨iha, ihb⟩
  | mul _ _ _ _ _ _ iha ihb => exact onlyNames_mul.2 ⟨iha, ihb⟩
  | div _ _ _ _ _ _ _ iha ihb => exact onlyNames_div.2 ⟨iha, ihb⟩
  | pow _ _ _ _ _ _ _ _ iha ihb => exact onlyNames_pow.2 ⟨iha, ihb⟩
  | apply _ _ _ _ ih => exact onlyNames_apply.2 ih

/-- Only numbers have degree zero, if operations have at least degree one. -/
theorem one_le (h : Graded 1 I σ g e v d q) (he : e.isConst = false) : 1 ≤ d := by
  cases h with
  | const c _ => simp [isConst] at he
  | _ => assumption

/-- An expression of degree zero is a number. -/
theorem exists_const (h : Graded 1 I σ g e v 0 q) : ∃ c, e = .const c ∧ v = valueIn K c := by
  cases h with
  | const c _ => exact ⟨c, rfl, rfl⟩
  | _ => omega

/-- An integer is graded by any degrees below the bound. -/
theorem ofInt [ExactNumber κ] (n : ℤ) (hd : g.Admits d q) :
    Graded least I σ g (Expr.ofInt n : Expr κ) (n : K) d q := by
  have number : Graded least I σ g (.const (Arithmetic.ofInt n : κ)) _ d q := .const _ hd
  rwa [valueIn_ofInt] at number

theorem ofInt_zero [ExactNumber κ] (hd : g.Admits d q) :
    Graded least I σ g (Expr.ofInt 0 : Expr κ) 0 d q := by
  simpa using ofInt (K := K) 0 hd

theorem ofInt_one [ExactNumber κ] (hd : g.Admits d q) :
    Graded least I σ g (Expr.ofInt 1 : Expr κ) 1 d q := by
  simpa using ofInt (K := K) 1 hd

/-- The demand on operations may be dropped. -/
theorem relax (h : Graded least I σ g e v d q) : Graded 0 I σ g e v d q := by
  induction h with
  | var hx hv h1 hd => exact .var hx hv h1 hd
  | const c hd => exact .const c hd
  | add _ _ hj hl _ hd iha ihb => exact .add iha ihb hj hl (Nat.zero_le _) hd
  | sub _ _ hj hl _ hd iha ihb => exact .sub iha ihb hj hl (Nat.zero_le _) hd
  | mul _ _ hj hl _ hd iha ihb => exact .mul iha ihb hj hl (Nat.zero_le _) hd
  | div _ _ hv hj hl _ hd iha ihb => exact .div iha ihb hv hj hl (Nat.zero_le _) hd
  | pow _ _ hn hi hj hl _ hd iha ihb => exact .pow iha ihb hn hi hj hl (Nat.zero_le _) hd
  | apply _ hf h1 hd ih => exact .apply ih hf h1 hd

/-- Denominators need not be bounded. -/
theorem polynomial (h : Graded least I σ g e v d q) : Graded least I σ .polynomial e v d q := by
  induction h with
  | var hx hv h1 hd => exact .var hx hv h1 hd.polynomial
  | const c hd => exact .const c hd.polynomial
  | add _ _ hj hl h1 hd iha ihb => exact .add iha ihb hj hl h1 hd.polynomial
  | sub _ _ hj hl h1 hd iha ihb => exact .sub iha ihb hj hl h1 hd.polynomial
  | mul _ _ hj hl h1 hd iha ihb => exact .mul iha ihb hj hl h1 hd.polynomial
  | div _ _ hv hj hl h1 hd iha ihb => exact .div iha ihb hv hj hl h1 hd.polynomial
  | pow _ _ hn hi hj hl h1 hd iha ihb => exact .pow iha ihb hn hi hj hl h1 hd.polynomial
  | apply _ hf h1 hd ih => exact .apply ih hf h1 hd.polynomial

variable [CharZero K]

/-- Two grades of one expression have the same value. -/
theorem unique {least' : ℕ} {g' : Grading} {w : K} (h : Graded least I σ g e v d q)
    (h' : Graded least' I σ g' e w d' q') : v = w :=
  h.hasValue.unique h'.hasValue

/-- Of two grades of one expression the smaller degrees will do. -/
theorem inf {w : K} (h : Graded least I σ g e v d q) (h' : Graded least I σ g e w d' q') :
    Graded least I σ g e v (min d d') (min q q') := by
  have hb := h.admits.mono (min_le_left d d') (min_le_left q q')
  -- both grades are built alike; the lesser degrees of the parts bound the lesser of the whole
  induction h generalizing w d' q' with
  | var hx hv h1 _ =>
      cases h' with
      | var _ _ h1' _ => exact .var hx hv (le_min h1 h1') hb
  | const c _ => exact .const c hb
  | @add g a b u v i j k l d q ha hb₁ hj hl h1 _ iha ihb =>
      cases h' with
      | @add _ _ _ _ _ i' j' k' l' _ _ ha' hb₁' hj' hl' h1' _ =>
          have ha := iha ha' (ha.admits.mono (min_le_left _ _) (min_le_left _ _))
          have hb₁ := ihb hb₁' (hb₁.admits.mono (min_le_left _ _) (min_le_left _ _))
          exact .add ha hb₁ (by omega) (by omega) (by omega) hb
  | @sub g a b u v i j k l d q ha hb₁ hj hl h1 _ iha ihb =>
      cases h' with
      | @sub _ _ _ _ _ i' j' k' l' _ _ ha' hb₁' hj' hl' h1' _ =>
          have ha := iha ha' (ha.admits.mono (min_le_left _ _) (min_le_left _ _))
          have hb₁ := ihb hb₁' (hb₁.admits.mono (min_le_left _ _) (min_le_left _ _))
          exact .sub ha hb₁ (by omega) (by omega) (by omega) hb
  | @mul g a b u v i j k l d q ha hb₁ hj hl h1 _ iha ihb =>
      cases h' with
      | @mul _ _ _ _ _ i' j' k' l' _ _ ha' hb₁' hj' hl' h1' _ =>
          have ha := iha ha' (ha.admits.mono (min_le_left _ _) (min_le_left _ _))
          have hb₁ := ihb hb₁' (hb₁.admits.mono (min_le_left _ _) (min_le_left _ _))
          exact .mul ha hb₁ (by omega) (by omega) (by omega) hb
  | @div g a b u v i j k l d q ha hb₁ hv hj hl h1 _ iha ihb =>
      cases h' with
      | @div _ _ _ _ _ i' j' k' l' _ _ ha' hb₁' _ hj' hl' h1' _ =>
          have ha := iha ha' (ha.admits.mono (min_le_left _ _) (min_le_left _ _))
          have hb₁ := ihb hb₁' (hb₁.admits.mono (min_le_left _ _) (min_le_left _ _))
          exact .div ha hb₁ hv (by omega) (by omega) (by omega) hb
  | @pow g a b u n i j k l d q ha hb₁ hn hi hj hl h1 _ iha ihb =>
      cases h' with
      | @pow _ _ _ _ n' i' j' k' l' _ _ ha' hb₁' _ hi' hj' hl' h1' _ =>
          -- the exponents agree, being the value of one expression
          obtain rfl : n = n' := Int.cast_injective (hb₁.unique hb₁')
          have ha := iha ha' (ha.admits.mono (min_le_left _ _) (min_le_left _ _))
          have hb₁ := ihb hb₁' (hb₁.admits.mono (min_le_left _ _) (min_le_left _ _))
          have le (m : ℕ) (x y : ℕ) : m * min x y ≤ m * x ∧ m * min x y ≤ m * y :=
            ⟨Nat.mul_le_mul_left _ (min_le_left x y), Nat.mul_le_mul_left _ (min_le_right x y)⟩
          have := le n.natAbs i i'
          have := le n.natAbs k k'
          have := le (-n).toNat i i'
          exact .pow ha hb₁ hn (by omega) (by omega) (by omega) (by omega) hb
  | apply ha hf h1 _ _ =>
      cases h' with
      | apply _ _ h1' _ => exact .apply ha hf (le_min h1 h1') hb

/-- **An expression with bounded degrees is graded by them.** -/
theorem of_hasValue (h : HasValue I σ e v) (names : Named e)
    (bounded : e.DegreesBounded I σ g) :
    Graded 0 I σ g e v (e.degree I σ) (e.denominators I σ) := by
  induction h generalizing g with
  | var hv =>
      rw [DegreesBounded] at bounded
      exact .var (onlyNames_var.1 names) hv le_rfl bounded.1
  | const c =>
      rw [DegreesBounded] at bounded
      exact .const c bounded.1
  | add _ _ iha ihb =>
      rw [DegreesBounded] at bounded
      obtain ⟨hd, ba, bb⟩ := bounded
      obtain ⟨na, nb⟩ := onlyNames_add.1 names
      exact .add (iha na ba) (ihb nb bb) le_rfl le_rfl (Nat.zero_le _) hd
  | sub _ _ iha ihb =>
      rw [DegreesBounded] at bounded
      obtain ⟨hd, ba, bb⟩ := bounded
      obtain ⟨na, nb⟩ := onlyNames_sub.1 names
      exact .sub (iha na ba) (ihb nb bb) le_rfl le_rfl (Nat.zero_le _) hd
  | mul _ _ iha ihb =>
      rw [DegreesBounded] at bounded
      obtain ⟨hd, ba, bb⟩ := bounded
      obtain ⟨na, nb⟩ := onlyNames_mul.1 names
      exact .mul (iha na ba) (ihb nb bb) le_rfl le_rfl (Nat.zero_le _) hd
  | div _ _ hv iha ihb =>
      rw [DegreesBounded] at bounded
      obtain ⟨hd, ba, bb⟩ := bounded
      obtain ⟨na, nb⟩ := onlyNames_div.1 names
      exact .div (iha na ba) (ihb nb bb) hv le_rfl le_rfl (Nat.zero_le _) hd
  | pow _ hb hn iha ihb =>
      rw [DegreesBounded] at bounded
      obtain ⟨hd, ba, bb⟩ := bounded
      obtain ⟨na, nb⟩ := onlyNames_pow.1 names
      refine .pow (iha na ba) (ihb nb bb) hn ?_ ?_ ?_ (Nat.zero_le _) hd
      · rw [degree, exponentAt_eq hb]
        exact le_max_left _ _
      · exact le_max_right _ _
      · rw [denominators, exponentAt_eq hb]
  | apply _ hf ih =>
      rw [DegreesBounded] at bounded
      exact .apply (ih (onlyNames_apply.1 names) bounded.2) hf le_rfl bounded.1

end Graded

end Expr

end Reckoner
