/-
**Families of expressions that are closed under collecting and merging.**

Simplification collects the like terms of a sum and merges the equal bases of a product.  Both
take an expression apart into terms, factors, bases and exponents and put these together again.  A
family of expressions is closed under them as soon as a sum, a difference or a product belongs to
it exactly when its operands do, and a power exactly when its base does and its exponent is one of
the exponents of the family.  For the factors of a product and the terms that are written from them
nothing is demanded of sums and differences.

Main definitions:

* `Reckoner.Expr.ProductFamily` — what is demanded of a family and its exponents for products;
* `Reckoner.Expr.Family` — what is demanded for sums as well;
* `Reckoner.Expr.PowersIn` — lists of powers in a family.

Main results:

* `Reckoner.Expr.Family.collected?` — **like terms are collected inside a family**;
* `Reckoner.Expr.ProductFamily.simplifyProduct` — **equal bases are merged inside a family**, if
  sums of exponents are exponents again;
* `Reckoner.Expr.forall_mem_crossProduct`, `Reckoner.Expr.sumOf_induction` — products and sums of
  lists of terms.
-/

import Reckoner.Expr.Expand
import Reckoner.Proofs.Rules

set_option autoImplicit false

namespace Reckoner

namespace Expr

variable {κ : Type} [Number κ]

/-- A family of expressions as far as products and powers are concerned, given by its members and
by the exponents of powers in it. -/
structure ProductFamily (Mem Exponent : Expr κ → Prop) : Prop where
  /-- Numbers are members. -/
  const (c : κ) : Mem (.const c)
  /-- A product is a member if both factors are. -/
  mul {a b : Expr κ} : Mem (.mul a b) ↔ Mem a ∧ Mem b
  /-- A power is a member if its base is, and its exponent is an exponent of the family. -/
  pow {a b : Expr κ} : Mem (.pow a b) ↔ Mem a ∧ Exponent b
  /-- Positive integers are exponents. -/
  ofInt {n : ℤ} : 0 < n → Exponent (.ofInt n)

/-- A family of expressions, given by its members and by the exponents of powers in it. -/
structure Family (Mem Exponent : Expr κ → Prop) : Prop extends ProductFamily Mem Exponent where
  /-- A sum is a member if both terms are. -/
  add {a b : Expr κ} : Mem (.add a b) ↔ Mem a ∧ Mem b
  /-- A difference is a member if both terms are. -/
  sub {a b : Expr κ} : Mem (.sub a b) ↔ Mem a ∧ Mem b

namespace ProductFamily

variable {Mem Exponent : Expr κ → Prop} (F : ProductFamily Mem Exponent)
variable {a b e : Expr κ} {c : κ}

include F

/-! ### Factors and the terms written from them -/

theorem factors (h : Mem e) : ∀ f ∈ e.factors, Mem f := by
  induction e with
  | mul a b iha ihb =>
      rw [F.mul] at h
      intro f hf
      rcases List.mem_append.1 hf with hf | hf
      · exact iha h.1 f hf
      · exact ihb h.2 f hf
  | _ => simp [Expr.factors, h]

theorem scaled (h : Mem e) : Mem (scaled c e) := by
  unfold Expr.scaled
  split
  · exact h
  · exact F.mul.2 ⟨F.const c, h⟩

theorem atomPower (h : Mem e) : Mem e.atomPower.1 := by
  unfold Expr.atomPower
  split
  · split
    · split
      · exact (F.pow.1 h).1
      · exact h
    · exact h
  · exact h

theorem foldl_mul {es : List (Expr κ)} (he : Mem e) (h : ∀ f ∈ es, Mem f) :
    Mem (es.foldl .mul e) := by
  induction es generalizing e with
  | nil => exact he
  | cons f es ih =>
      exact ih (F.mul.2 ⟨he, h f List.mem_cons_self⟩) fun g hg => h g (List.mem_cons_of_mem _ hg)

theorem product {es : List (Expr κ)} (h : ∀ f ∈ es, Mem f) : Mem (Collection.product es) := by
  cases es with
  | nil => exact F.const _
  | cons f es =>
      exact F.foldl_mul (h f List.mem_cons_self) fun g hg => h g (List.mem_cons_of_mem _ hg)

section Written

variable {s : Collection κ}

theorem powerOf (hs : s.Over Mem) {m : Monomial} (hm : s.Knows m) {p : String × ℤ} (hp : p ∈ m) :
    Mem (s.powerOf p.1 p.2) := by
  have atom := (hs.atom hm hp).2
  unfold Collection.powerOf
  split
  · exact atom
  · exact F.pow.2 ⟨atom, F.ofInt (hm p hp).1⟩

theorem term (hs : s.Over Mem) {m : Monomial} (hm : s.Knows m) (c : κ) : Mem (s.term m c) := by
  have powers : ∀ f ∈ m.map fun p => s.powerOf p.1 p.2, Mem f := by
    intro f hf
    obtain ⟨p, hp, rfl⟩ := List.mem_map.1 hf
    exact F.powerOf hs hm hp
  unfold Collection.term
  split
  · exact F.const _
  · refine F.product ?_
    split
    · exact powers
    · exact List.forall_mem_cons.2 ⟨F.const _, powers⟩

end Written

end ProductFamily

/-! ### Like terms -/

namespace Family

variable {Mem Exponent : Expr κ → Prop} (F : Family Mem Exponent)
variable {a b e : Expr κ} {c : κ}

include F

theorem terms (h : Mem e) : ∀ t ∈ terms c e, Mem t := by
  intro t ht
  fun_induction Expr.terms c e with
  | case1 c a b iha ihb =>
      rw [F.add] at h
      exact (List.mem_append.1 ht).elim (iha h.1) (ihb h.2)
  | case2 c a b iha ihb =>
      rw [F.sub] at h
      exact (List.mem_append.1 ht).elim (iha h.1) (ihb h.2)
  | case3 c d =>
      rw [List.mem_singleton.1 ht]
      exact F.const _
  | case4 c d b _ ih => exact ih (F.mul.1 h).2 ht
  | case5 c d b _ =>
      rw [List.mem_singleton.1 ht]
      exact F.scaled h
  | case6 c a d _ _ ih => exact ih (F.mul.1 h).1 ht
  | case7 c a d _ _ =>
      rw [List.mem_singleton.1 ht]
      exact F.scaled h
  | case8 c a b _ _ =>
      rw [List.mem_singleton.1 ht]
      exact F.scaled h
  | case9 c e _ _ _ _ =>
      rw [List.mem_singleton.1 ht]
      exact F.scaled h

section LikeTerms

variable {s : Collection κ}

theorem appendTerm (hs : s.Over Mem) {t : Monomial × κ} (ht : s.Knows t.1) (he : Mem e) :
    Mem (s.appendTerm e t) := by
  unfold Collection.appendTerm
  split
  · exact F.sub.2 ⟨he, F.term hs ht _⟩
  · exact F.add.2 ⟨he, F.term hs ht _⟩

theorem toExpr (hs : s.Over Mem) : Mem s.toExpr := by
  have known : ∀ t ∈ s.ordered, s.Knows t.1 :=
    fun t ht => hs.sums t (Collection.mem_sums_of_mem_ordered ht)
  have sum : ∀ (ts : List (Monomial × κ)) (acc : Expr κ), (∀ t ∈ ts, s.Knows t.1) →
      Mem acc → Mem (ts.foldl s.appendTerm acc) := by
    intro ts
    induction ts with
    | nil => exact fun acc _ hacc => hacc
    | cons t ts ih =>
        intro acc hts hacc
        exact ih _ (fun u hu => hts u (List.mem_cons_of_mem _ hu))
          (F.appendTerm hs (hts t List.mem_cons_self) hacc)
  unfold Collection.toExpr
  split
  · exact F.const _
  · rename_i t ts ho
    rw [ho] at known
    exact sum ts _ (fun u hu => known u (List.mem_cons_of_mem _ hu))
      (F.term hs (known t List.mem_cons_self) _)

/-- **Like terms are collected inside a family.** -/
theorem collected? {e' : Expr κ} (h : Mem e) (he : e.collected? = some e') : Mem e' := by
  unfold Expr.collected? at he
  dsimp only at he
  split at he
  · simp at he
  · obtain rfl := Option.some.inj he
    refine F.toExpr (Collection.ofTerms_over fun t ht => ?_)
    intro f hf _
    exact F.atomPower (F.factors (F.terms h t ht) f hf)

end LikeTerms

end Family

/-! ### Products -/

/-- Every power of a list has a base in a family and one of its exponents. -/
def PowersIn (Mem Exponent : Expr κ → Prop) (ps : List (Expr κ × Expr κ)) : Prop :=
  ∀ p ∈ ps, Mem p.1 ∧ Exponent p.2

namespace ProductFamily

variable {Mem Exponent : Expr κ → Prop} (F : ProductFamily Mem Exponent)
variable {a b e : Expr κ} {c : κ} {ps : List (Expr κ × Expr κ)} {again : Expr κ → Expr κ}

include F

theorem baseAndExponent (h : Mem e) : Mem e.baseAndExponent.1 ∧ Exponent e.baseAndExponent.2 := by
  unfold Expr.baseAndExponent
  split
  · exact F.pow.1 h
  · exact ⟨h, F.ofInt Int.one_pos⟩

omit F in
theorem mergePower (sums : ∀ a b, Exponent a → Exponent b → Exponent (again (.add a b)))
    (hps : PowersIn Mem Exponent ps) (ha : Mem a) (hb : Exponent b) :
    PowersIn Mem Exponent (mergePower again a b ps) := by
  induction ps with
  | nil => simpa [PowersIn, Expr.mergePower] using ⟨ha, hb⟩
  | cons p ps ih =>
      obtain ⟨hp, hrest⟩ := List.forall_mem_cons.1 hps
      simp only [Expr.mergePower]
      split
      · exact List.forall_mem_cons.2 ⟨⟨hp.1, sums _ _ hp.2 hb⟩, hrest⟩
      · exact List.forall_mem_cons.2 ⟨hp, ih hrest⟩

theorem mergeFactors (sums : ∀ a b, Exponent a → Exponent b → Exponent (again (.add a b)))
    {es : List (Expr κ)} (hps : PowersIn Mem Exponent ps) (hes : ∀ f ∈ es, Mem f) :
    PowersIn Mem Exponent (mergeFactors again c ps es).2 := by
  induction es generalizing c ps with
  | nil => exact hps
  | cons f es ih =>
      obtain ⟨hf, hrest⟩ := List.forall_mem_cons.1 hes
      cases hc : f.isConst with
      | true =>
          obtain ⟨d, rfl⟩ := exists_const_of_isConst hc
          exact ih hps hrest
      | false =>
          rw [mergeFactors_cons hc]
          have hf' := F.baseAndExponent hf
          exact ih (mergePower sums hps hf'.1 hf'.2) hrest

theorem factor? {p : Expr κ × Expr κ} (hp : Mem p.1 ∧ Exponent p.2) (hf : factor? p = some e) :
    Mem e := by
  unfold Expr.factor? at hf
  split at hf
  · simp at hf
  · split at hf
    · exact Option.some.inj hf ▸ hp.1
    · exact Option.some.inj hf ▸ F.pow.2 hp

/-- **Equal bases are merged inside a family.** -/
theorem simplifyProduct (sums : ∀ a b, Exponent a → Exponent b → Exponent (again (.add a b)))
    (h : Mem e) : Mem (simplifyProduct again e) := by
  have hps : PowersIn Mem Exponent (Expr.mergeFactors again Arithmetic.one [] e.factors).2 :=
    F.mergeFactors sums (by simp [PowersIn]) (F.factors h)
  have factors : ∀ f ∈ (Expr.mergeFactors again Arithmetic.one [] e.factors).2.filterMap
      Expr.factor?, Mem f := by
    intro f hf
    obtain ⟨p, hp, hpf⟩ := List.mem_filterMap.1 hf
    exact F.factor? (hps p hp) hpf
  unfold Expr.simplifyProduct
  dsimp only
  split
  · exact F.const _
  · refine F.product ?_
    split
    · exact factors
    · exact List.forall_mem_cons.2 ⟨F.const _, factors⟩

end ProductFamily

/-! ### Lists of terms -/

omit [Number κ] in
/-- What holds of every product of a term of one list with a term of another holds of all terms of
their product. -/
theorem forall_mem_crossProduct {Q : Expr κ → Prop} {es fs : List (Expr κ)}
    (mul : ∀ a ∈ es, ∀ b ∈ fs, Q (.mul a b)) : ∀ t ∈ crossProduct es fs, Q t := by
  intro t ht
  obtain ⟨e, he, ht⟩ := List.mem_flatMap.1 ht
  obtain ⟨f, hf, rfl⟩ := List.mem_map.1 ht
  exact mul e he f hf

/-- The sum of a list of terms has a property that terms have, and that a sum keeps when one more
term is added to it. -/
theorem sumOf_induction {Q Term : Expr κ → Prop} {es : List (Expr κ)} (zero : Q (ofInt 0))
    (term : ∀ t, Term t → Q t) (add : ∀ a t, Q a → Term t → Q (.add a t))
    (hes : ∀ t ∈ es, Term t) : Q (sumOf es) := by
  have fold (es : List (Expr κ)) (e : Expr κ) (he : Q e) (hes : ∀ t ∈ es, Term t) :
      Q (es.foldl .add e) := by
    induction es generalizing e with
    | nil => exact he
    | cons t es ih =>
        obtain ⟨ht, hes⟩ := List.forall_mem_cons.1 hes
        exact ih _ (add e t he ht) hes
  cases es with
  | nil => exact zero
  | cons e es =>
      obtain ⟨he, hes⟩ := List.forall_mem_cons.1 hes
      exact fold es e (term e he) hes

end Expr

end Reckoner
