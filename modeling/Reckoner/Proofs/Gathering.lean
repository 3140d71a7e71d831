/-
**Only like terms are merged.**

A collection files every term under its monomial, and the coefficients filed under one monomial are
added.  A monomial is made of texts and exponents, so this is right as far as the texts tell the
atoms apart and the exponents are those of the term.  Texts do tell atoms apart when they can be
read back, and when they are those of exact numbers and identifiers.  Exponents are another matter:
an exponent is cut down to `Reckoner.Expr.maxExponent`, and terms whose exponents differ only above
it are merged although they are not alike.

The theorem is therefore about the exponents that are left after cutting: two terms are merged
exactly when these agree for every atom, and these are the exponents that are written.  Nothing is
cut from a term whose powers stay below the bound, and there the exponents are those of the term.

Main definitions:

* `Reckoner.Expr.monomial`, `Reckoner.Expr.coefficient` — what a term is filed under, and the number
  that is added there;
* `Reckoner.Expr.power` — a factor as a power of an atom, before its exponent is cut;
* `Reckoner.Expr.exponent`, `Reckoner.Expr.keptExponent` — the exponent of an atom in a term, and
  what is left of it;
* `Reckoner.Expr.TextsApart` — terms whose atoms are told apart by their texts;
* `Reckoner.Collection.Writes` — the powers in a monomial of a collection are those of a term.

Main results:

* `Reckoner.Collection.lookup_ofTerms` — the coefficients of a monomial are added, and no others;
* `Reckoner.Expr.monomial_eq_iff` — terms have one monomial exactly when the exponents that are
  left agree;
* `Reckoner.Expr.collected?_gathers` — **only like terms are merged, and their exponents written**,
  up to the cutting of exponents;
* `Reckoner.Expr.simplify_sub_powers` — when a difference of two powers of a variable vanishes.
-/

import Mathlib.Tactic
import Reckoner.Proofs.Monomials
import Reckoner.Proofs.ShortestText
import Reckoner.Proofs.PolynomialIdentity

set_option autoImplicit false

namespace Reckoner

open Arithmetic (isZero isOne integer? one)

variable {κ : Type} [Number κ]

/-! ### Monomials and coefficients of terms -/

namespace Collection

variable {s s' : Collection κ} {m : Monomial} {c : κ} {es : List (Expr κ)} {p : Monomial × κ}

/-- The number and the monomial of a product do not depend on what is remembered. -/
theorem addFactors_snd (s s' : Collection κ) (c : κ) (m : Monomial) (es : List (Expr κ)) :
    (addFactors s c m es).2 = (addFactors s' c m es).2 := by
  induction es generalizing s s' c m with
  | nil => rfl
  | cons e es ih =>
      cases hc : e.isConst with
      | true =>
          obtain ⟨d, rfl⟩ := Expr.exists_const_of_isConst hc
          exact ih s s' _ m
      | false =>
          rw [addFactors_cons hc, addFactors_cons hc]
          exact ih _ _ c _

end Collection

namespace Expr

/-- The number in front of a term, the product of the numbers among its factors. -/
def coefficient (e : Expr κ) : κ := (Collection.addFactors .empty one [] e.factors).2.1

/-- The monomial of a term. -/
def monomial (e : Expr κ) : Monomial := (Collection.addFactors .empty one [] e.factors).2.2

/-- The sum of a list of numbers from left to right, if there are any. -/
def addUp? : List κ → Option κ
  | [] => none
  | c :: cs => some (cs.foldl (· + ·) c)

theorem addUp?_concat (cs : List κ) (c : κ) :
    addUp? (cs ++ [c]) = some (((addUp? cs).map (· + c)).getD c) := by
  cases cs with
  | nil => rfl
  | cons d ds => simp [addUp?]

end Expr

namespace Collection

variable {s : Collection κ} {m : Monomial} {c : κ} {es : List (Expr κ)} {p : Monomial × κ}
variable {l : List (Monomial × κ)}

theorem addTerm_sums_eq (s : Collection κ) (e : Expr κ) :
    (s.addTerm e).sums = accumulate e.monomial e.coefficient s.sums := by
  rw [addTerm_sums, addFactors_snd s .empty]
  rfl

omit [Number κ] in
theorem lookup_cons_of_ne {k k' : Monomial} (h : k ≠ k') (d : κ) (l : List (Monomial × κ)) :
    ((k', d) :: l).lookup k = l.lookup k := by
  rw [List.lookup_cons, beq_false_of_ne h]

/-- What stands under a monomial after one more coefficient. -/
theorem lookup_accumulate (k m : Monomial) (c : κ) (l : List (Monomial × κ)) :
    (accumulate m c l).lookup k =
      if k = m then some (((l.lookup m).map (· + c)).getD c) else l.lookup k := by
  induction l with
  | nil =>
      by_cases hk : k = m
      · subst hk
        simp [accumulate]
      · rw [accumulate, lookup_cons_of_ne hk, if_neg hk]
  | cons t l ih =>
      obtain ⟨k', d⟩ := t
      simp only [accumulate]
      split
      · rename_i hm
        subst hm
        by_cases hk : k = k'
        · subst hk
          simp
        · rw [lookup_cons_of_ne hk, lookup_cons_of_ne hk, if_neg hk]
      · rename_i hm
        rw [lookup_cons_of_ne (Ne.symm hm)]
        by_cases hk : k = k'
        · subst hk
          simp [hm]
        · rw [lookup_cons_of_ne hk, lookup_cons_of_ne hk, ih]

/-- **Under a monomial stands the sum of the coefficients of its terms**, and of no others. -/
theorem lookup_ofTerms (es : List (Expr κ)) (m : Monomial) : (ofTerms es).sums.lookup m =
    Expr.addUp? ((es.filter fun t => t.monomial = m).map Expr.coefficient) := by
  -- the terms are filed from left to right
  induction es using List.reverseRecOn with
  | nil => rfl
  | append_singleton es t ih =>
      have hsums : (ofTerms (es ++ [t])).sums =
          accumulate t.monomial t.coefficient (ofTerms es).sums := by
        rw [ofTerms, List.foldl_append, List.foldl_cons, List.foldl_nil, addTerm_sums_eq]
        rfl
      rw [hsums, lookup_accumulate, List.filter_append, List.map_append]
      by_cases hm : m = t.monomial
      · subst hm
        rw [if_pos rfl, ih]
        simp [Expr.addUp?_concat]
      · rw [if_neg hm, ih]
        simp [Ne.symm hm]

/-- Something stands under the monomial of every term, and under no other. -/
theorem lookup_ofTerms_eq_none_iff :
    (ofTerms es).sums.lookup m = none ↔ ∀ t ∈ es, t.monomial ≠ m := by
  rw [lookup_ofTerms]
  cases hc : es.filter fun t => decide (t.monomial = m) with
  | nil =>
      refine iff_of_true rfl fun t ht hm => ?_
      simpa [hm] using List.filter_eq_nil_iff.1 hc t ht
  | cons t ts =>
      have ht : t ∈ es.filter fun t => decide (t.monomial = m) := hc ▸ List.mem_cons_self
      refine iff_of_false (by simp [Expr.addUp?]) fun h => ?_
      exact h t (List.mem_filter.1 ht).1 (by simpa using (List.mem_filter.1 ht).2)

omit [Number κ] in
/-- With one coefficient for every monomial, it is found under its monomial. -/
theorem mem_iff_lookup (h : (l.map Prod.fst).Nodup) : p ∈ l ↔ l.lookup p.1 = some p.2 := by
  induction l with
  | nil => simp
  | cons t l ih =>
      obtain ⟨ht, hl⟩ := List.nodup_cons.1 h
      obtain ⟨k, d⟩ := t
      obtain ⟨m, c⟩ := p
      rw [List.mem_cons, ih hl]
      by_cases hk : m = k
      · subst hk
        have absent : (m, c) ∉ l := fun h' => ht (List.mem_map.2 ⟨(m, c), h', rfl⟩)
        rw [ih hl] at absent
        simp [absent, eq_comm]
      · rw [lookup_cons_of_ne hk]
        exact or_iff_right fun h' => hk (congrArg Prod.fst h')

/-- Every monomial of a collection is that of a term. -/
theorem exists_monomial_eq (hp : p ∈ (ofTerms es).sums) : ∃ t ∈ es, t.monomial = p.1 := by
  have hlookup := (mem_iff_lookup (nodup_ofTerms es)).1 hp
  by_contra hnone
  rw [lookup_ofTerms_eq_none_iff.2 fun t ht hm => hnone ⟨t, ht, hm⟩] at hlookup
  simp at hlookup

/-- The monomial of every term is in the collection. -/
theorem exists_mem_sums {t : Expr κ} (ht : t ∈ es) : ∃ c, (t.monomial, c) ∈ (ofTerms es).sums := by
  cases hlookup : (ofTerms es).sums.lookup t.monomial with
  | none => exact absurd rfl (lookup_ofTerms_eq_none_iff.1 hlookup t ht)
  | some c => exact ⟨c, (mem_iff_lookup (nodup_ofTerms es)).2 hlookup⟩

end Collection

/-! ### Exponents -/

namespace Monomial

variable {m : Monomial} {key : String} {n : ℤ}

theorem positive_times (hm : ∀ p ∈ m, 0 < p.2) (hn : 0 < n) : ∀ p ∈ m.times key n, 0 < p.2 := by
  intro p hp
  rcases Collection.mem_times hp with hp | ⟨-, hp | ⟨j, hj, hp⟩⟩
  · exact hm p hp
  · exact hp ▸ hn
  · have := hm _ hj
    omega

theorem exponents_times (hm : ∀ p ∈ m, 0 < p.2) (hn : 0 < n) :
    (m.times key n).exponents = m.exponents + Finsupp.single key n.toNat := by
  induction m with
  | nil => simp [Monomial.times]
  | cons p m ih =>
      obtain ⟨k, j⟩ := p
      obtain ⟨hj, hm⟩ := List.forall_mem_cons.1 hm
      simp only [Monomial.times]
      split
      · rename_i hk
        subst hk
        rw [exponents_cons, exponents_cons, Int.toNat_add hj.le hn.le, Finsupp.single_add]
        exact add_right_comm _ _ _
      · split
        · rw [exponents_cons, add_comm]
        · rw [exponents_cons, exponents_cons, ih hm, add_assoc]

end Monomial

namespace Expr

variable {e f a : Expr κ} {es : List (Expr κ)}

/-- A factor as a power of an atom, with the exponent as it stands. -/
def power (e : Expr κ) : Expr κ × ℤ :=
  match e with
  | .pow base (.const c) =>
      match integer? c with
      | some n => if 0 < n && !base.isConst then (base, n) else (e, 1)
      | none => (e, 1)
  | e => (e, 1)

/-- The exponent of the power is cut down. -/
theorem atomPower_eq (e : Expr κ) : e.atomPower = (e.power.1, min e.power.2 maxExponent) := by
  have hone : min 1 maxExponent = 1 := by decide
  fun_cases power e with
  | case1 base c n hn hpos => simp [atomPower, hn, hpos]
  | case2 base c n hn hpos => simp [atomPower, hn, hpos, hone]
  | case3 base c hn => simp [atomPower, hn, hone]
  | case4 e he =>
      unfold atomPower
      split
      · exact absurd rfl (he _ _)
      · rw [hone]

open Classical in
/-- The exponents of an atom among some factors, each one cut, added up. -/
noncomputable def exponentIn (cut : ℤ → ℤ) (a : Expr κ) (es : List (Expr κ)) : ℤ :=
  (es.map fun f => if f.isConst = false ∧ f.power.1 = a then cut f.power.2 else 0).sum

/-- The exponent of an atom in a term. -/
noncomputable def exponent (e a : Expr κ) : ℤ := exponentIn id a e.factors

/-- What is left of the exponent of an atom in a term. -/
noncomputable def keptExponent (e a : Expr κ) : ℤ :=
  exponentIn (min · maxExponent) a e.factors

/-- The exponents are kept of a term whose powers stay below the bound. -/
theorem keptExponent_eq (h : ∀ f ∈ e.factors, f.power.2 ≤ maxExponent) (a : Expr κ) :
    e.keptExponent a = e.exponent a := by
  unfold keptExponent exponent exponentIn
  congr 1
  refine List.map_congr_left fun f hf => ?_
  dsimp only [id]
  rw [min_eq_left (h f hf)]

/-- Every exponent that is left is positive. -/
theorem kept_pos (f : Expr κ) : 0 < min f.power.2 maxExponent := by
  have := f.atomPower_pos
  rwa [atomPower_eq] at this

theorem exponentIn_nonneg (a : Expr κ) (es : List (Expr κ)) :
    0 ≤ exponentIn (min · maxExponent) a es := by
  refine List.sum_nonneg fun n hn => ?_
  obtain ⟨f, -, rfl⟩ := List.mem_map.1 hn
  split
  · exact f.kept_pos.le
  · exact le_rfl

/-- An atom with an exponent occurs. -/
theorem exists_of_exponentIn_ne_zero {cut : ℤ → ℤ} (h : exponentIn cut a es ≠ 0) :
    ∃ f ∈ es, f.isConst = false ∧ f.power.1 = a := by
  by_contra hnone
  refine h (List.sum_eq_zero fun n hn => ?_)
  obtain ⟨f, hf, rfl⟩ := List.mem_map.1 hn
  rw [if_neg fun h => hnone ⟨f, hf, h⟩]

/-! ### Atoms that are told apart -/

/-- An atom of one of some terms. -/
def IsAtomOf (es : List (Expr κ)) (a : Expr κ) : Prop :=
  ∃ t ∈ es, ∃ f ∈ t.factors, f.isConst = false ∧ f.power.1 = a

/-- The atoms of some terms are told apart by their texts. -/
def TextsApart (es : List (Expr κ)) : Prop :=
  ∀ a b, IsAtomOf es a → IsAtomOf es b → a.text = b.text → a = b

/-- A factor of a term has the exponent of its atom under the text of that atom. -/
theorem exponents_addFactors {s : Collection κ} {c : κ} {m : Monomial}
    (hm : ∀ p ∈ m, 0 < p.2) (h : ∀ f ∈ es, f.isConst = false → f.power.1.text = a.text →
      f.power.1 = a) :
    (Collection.addFactors s c m es).2.2.exponents a.text =
      m.exponents a.text + (exponentIn (min · maxExponent) a es).toNat := by
  induction es generalizing s c m with
  | nil => simp [Collection.addFactors, exponentIn]
  | cons f es ih =>
      obtain ⟨hf, hes⟩ := List.forall_mem_cons.1 h
      cases hc : f.isConst with
      | true =>
          obtain ⟨d, rfl⟩ := exists_const_of_isConst hc
          rw [Collection.addFactors_const, ih hm hes]
          simp [exponentIn, isConst]
      | false =>
          have hpos := f.kept_pos
          rw [Collection.addFactors_cons hc, atomPower_eq, ih (Monomial.positive_times hm hpos) hes,
            Monomial.exponents_times hm hpos, Finsupp.add_apply, add_assoc]
          congr 1
          by_cases hatom : f.power.1 = a
          · have hsum : exponentIn (min · maxExponent) a (f :: es) =
                min f.power.2 maxExponent + exponentIn (min · maxExponent) a es := by
              simp [exponentIn, hc, hatom]
            rw [hsum, hatom, Finsupp.single_eq_same,
              Int.toNat_add hpos.le (exponentIn_nonneg a es)]
          · have hsum : exponentIn (min · maxExponent) a (f :: es) =
                exponentIn (min · maxExponent) a es := by
              simp [exponentIn, hc, hatom]
            have htext : a.text ≠ f.power.1.text := fun heq => hatom (hf hc heq.symm)
            rw [hsum, Finsupp.single_eq_of_ne htext, zero_add]

theorem proper_addFactors {s : Collection κ} {c : κ} {m : Monomial} (hm : m.Proper)
    (es : List (Expr κ)) : (Collection.addFactors s c m es).2.2.Proper := by
  induction es generalizing s c m with
  | nil => exact hm
  | cons f es ih =>
      cases hc : f.isConst with
      | true =>
          obtain ⟨d, rfl⟩ := exists_const_of_isConst hc
          exact ih hm
      | false =>
          rw [Collection.addFactors_cons hc]
          exact ih (hm.times _ f.atomPower_pos)

theorem monomial_proper (e : Expr κ) : e.monomial.Proper :=
  proper_addFactors Monomial.proper_nil _

/-- The exponents in a monomial are those that are left in the term. -/
theorem exponents_monomial (apart : TextsApart es) (he : e ∈ es) (ha : IsAtomOf es a) :
    e.monomial.exponents a.text = (e.keptExponent a).toNat := by
  have hfactors : ∀ f ∈ e.factors, f.isConst = false → f.power.1.text = a.text → f.power.1 = a :=
    fun f hf hc htext => apart _ _ ⟨e, he, f, hf, hc, rfl⟩ ha htext
  have := exponents_addFactors (s := .empty) (c := one) (m := []) (by simp) hfactors
  simpa [monomial, keptExponent] using this

/-- Every key of a monomial is the text of an atom of the term, with no larger exponent. -/
theorem exists_atom_of_mem_monomial {p : String × ℤ} (hp : p ∈ e.monomial) :
    ∃ f ∈ e.factors, f.isConst = false ∧ f.power.1.text = p.1 ∧
      min f.power.2 maxExponent ≤ p.2 := by
  have key : ∀ (es : List (Expr κ)) (s : Collection κ) (c : κ) (m : Monomial),
      (∀ q ∈ m, 0 < q.2) → p ∈ (Collection.addFactors s c m es).2.2 →
        (∃ q ∈ m, q.1 = p.1 ∧ q.2 ≤ p.2) ∨ ∃ f ∈ es, f.isConst = false ∧
          f.power.1.text = p.1 ∧ min f.power.2 maxExponent ≤ p.2 := by
    intro es
    induction es with
    | nil => exact fun s c m _ h => .inl ⟨p, h, rfl, le_rfl⟩
    | cons f es ih =>
        intro s c m hm h
        cases hc : f.isConst with
        | true =>
            obtain ⟨d, rfl⟩ := exists_const_of_isConst hc
            exact (ih _ _ _ hm h).imp_right fun ⟨g, hg, h⟩ => ⟨g, List.mem_cons_of_mem _ hg, h⟩
        | false =>
            have hpos := f.kept_pos
            rw [Collection.addFactors_cons hc, atomPower_eq] at h
            rcases ih _ _ _ (Monomial.positive_times hm hpos) h with ⟨q, hq, hqp, hle⟩ | ⟨g, hg, h⟩
            · rcases Collection.mem_times hq with hq | ⟨hkey, hq | ⟨j, hj, hq⟩⟩
              · exact .inl ⟨q, hq, hqp, hle⟩
              · exact .inr ⟨f, List.mem_cons_self, hc, hkey.symm.trans hqp, hq ▸ hle⟩
              · have := hm _ hj
                exact .inr ⟨f, List.mem_cons_self, hc, hkey.symm.trans hqp, by omega⟩
            · exact .inr ⟨g, List.mem_cons_of_mem _ hg, h⟩
  exact (key e.factors _ _ _ (by simp) hp).resolve_left (by simp)

/-- **Two terms have one monomial exactly when the exponents that are left of them agree.** -/
theorem monomial_eq_iff (apart : TextsApart es) (he : e ∈ es) (hf : f ∈ es) :
    e.monomial = f.monomial ↔ ∀ a, e.keptExponent a = f.keptExponent a := by
  constructor
  · intro h a
    have nonneg (t : Expr κ) : 0 ≤ t.keptExponent a := exponentIn_nonneg a _
    by_cases ha : IsAtomOf es a
    · have hexp := exponents_monomial apart he ha
      rw [h, exponents_monomial apart hf ha] at hexp
      have := nonneg e
      have := nonneg f
      omega
    · have absent : ∀ t ∈ es, t.keptExponent a = 0 := by
        intro t ht
        by_contra hne
        exact ha ⟨t, ht, exists_of_exponentIn_ne_zero hne⟩
      rw [absent e he, absent f hf]
  · intro h
    refine e.monomial_proper.ext f.monomial_proper (Finsupp.ext fun key => ?_)
    by_cases hkey : ∃ a, IsAtomOf es a ∧ a.text = key
    · obtain ⟨a, ha, rfl⟩ := hkey
      rw [exponents_monomial apart he ha, exponents_monomial apart hf ha, h]
    · have absent : ∀ t ∈ es, t.monomial.exponents key = 0 := by
        refine fun t ht => Monomial.exponents_of_forall_ne fun p hp heq => hkey ?_
        obtain ⟨g, hg, hc, htext, -⟩ := exists_atom_of_mem_monomial hp
        exact ⟨g.power.1, ⟨t, ht, g, hg, hc, rfl⟩, htext.trans heq⟩
      rw [absent e he, absent f hf]

end Expr

/-! ### Texts that tell atoms apart -/

namespace Expr

variable {e : Expr κ} {P : Expr κ → Prop}

/-- A property that operands have as soon as the operation has it. -/
structure Hereditary (P : Expr κ → Prop) : Prop where
  add {a b : Expr κ} : P (.add a b) → P a ∧ P b
  sub {a b : Expr κ} : P (.sub a b) → P a ∧ P b
  mul {a b : Expr κ} : P (.mul a b) → P a ∧ P b
  pow {a b : Expr κ} : P (.pow a b) → P a ∧ P b

namespace Hereditary

variable (H : Hereditary P)

include H

omit [Number κ] in
theorem factors (h : P e) : ∀ f ∈ e.factors, P f := by
  induction e with
  | mul a b iha ihb =>
      intro f hf
      exact (List.mem_append.1 hf).elim (iha (H.mul h).1 f) (ihb (H.mul h).2 f)
  | _ => simpa [Expr.factors] using h

theorem scaled (h : P e) (c : κ) : ∀ f ∈ (scaled c e).factors, f.isConst = false → P f := by
  unfold Expr.scaled
  split
  · exact fun f hf _ => H.factors h f hf
  · intro f hf hc
    rcases List.mem_cons.1 hf with rfl | hf
    · simp [isConst] at hc
    · exact H.factors h f hf

/-- The factors of the terms of a sum, other than numbers, are parts of it. -/
theorem terms (h : P e) (c : κ) :
    ∀ t ∈ terms c e, ∀ f ∈ t.factors, f.isConst = false → P f := by
  fun_induction Expr.terms c e with
  | case1 c a b iha ihb =>
      exact List.forall_mem_append.2 ⟨iha (H.add h).1, ihb (H.add h).2⟩
  | case2 c a b iha ihb =>
      exact List.forall_mem_append.2 ⟨iha (H.sub h).1, ihb (H.sub h).2⟩
  | case3 c d => simp [Expr.factors, isConst]
  | case4 c d b _ ih => exact ih (H.mul h).2
  | case5 c d b _ => simpa using H.scaled h c
  | case6 c a d _ _ ih => exact ih (H.mul h).1
  | case7 c a d _ _ => simpa using H.scaled h c
  | case8 c a b _ _ => simpa using H.scaled h c
  | case9 c e _ _ _ _ => simpa using H.scaled h c

theorem power (h : P e) : P e.power.1 := by
  fun_cases Expr.power e with
  | case1 base c n hn hpos => exact (H.pow h).1
  | _ => exact h

/-- The atoms of a sum are told apart by their texts if all its parts are. -/
theorem textsApart (inj : ∀ a b, P a → P b → a.text = b.text → a = b) (h : P e) (c : κ) :
    TextsApart (Expr.terms c e) := by
  have atoms : ∀ a, IsAtomOf (Expr.terms c e) a → P a := by
    rintro _ ⟨t, ht, f, hf, hc, rfl⟩
    exact H.power (H.terms h c t ht f hf hc)
  exact fun a b ha hb => inj a b (atoms a ha) (atoms b hb)

end Hereditary

/-- Exact numbers and identifiers are told apart. -/
theorem textsApart_of_named [ExactNumber κ] (h : Named e) (c : κ) : TextsApart (terms c e) := by
  have H : Hereditary (κ := κ) Named :=
    ⟨onlyNames_add.1, onlyNames_sub.1, onlyNames_mul.1, onlyNames_pow.1⟩
  exact H.textsApart (fun a b ha hb => text_inj ha hb) h c

/-- So is everything that can be read back. -/
theorem textsApart_of_legible (names : OnlyNames (fun x => Notation.isPlainName x.toList = true) e)
    (numbers : OnlyNumbers Legible e) (c : κ) : TextsApart (terms c e) := by
  have H : Hereditary (κ := κ) fun e =>
      OnlyNames (fun x => Notation.isPlainName x.toList = true) e ∧ OnlyNumbers Legible e := by
    constructor
    · exact fun h => ⟨⟨(onlyNames_add.1 h.1).1, h.2.1⟩, (onlyNames_add.1 h.1).2, h.2.2⟩
    · exact fun h => ⟨⟨(onlyNames_sub.1 h.1).1, h.2.1⟩, (onlyNames_sub.1 h.1).2, h.2.2⟩
    · exact fun h => ⟨⟨(onlyNames_mul.1 h.1).1, h.2.1⟩, (onlyNames_mul.1 h.1).2, h.2.2⟩
    · exact fun h => ⟨⟨(onlyNames_pow.1 h.1).1, h.2.1⟩, (onlyNames_pow.1 h.1).2, h.2.2⟩
  refine H.textsApart (fun a b ha hb htext => ?_) ⟨names, numbers⟩ c
  have hparse := parse_text_of_legible ha.1 ha.2
  rw [htext, parse_text_of_legible hb.1 hb.2] at hparse
  exact (Except.ok.inj hparse).symm

end Expr

/-! ### Collected sums -/

namespace Collection

variable {s : Collection κ} {es : List (Expr κ)} {p : Monomial × κ} {t : Expr κ}

/-- The powers in a monomial are those of a term: an atom stands in it with just the exponent that
is left of it in the term. -/
def Writes (s : Collection κ) (m : Monomial) (t : Expr κ) : Prop :=
  ∀ a n, 0 < n → ((∃ p ∈ m, s.atom p.1 = a ∧ p.2 = n) ↔ t.keptExponent a = n)

/-- The atoms of a collection are atoms of its terms. -/
theorem atoms_ofTerms (es : List (Expr κ)) : Over (Expr.IsAtomOf es) (ofTerms es) :=
  ofTerms_over fun t ht f hf hc => ⟨t, ht, f, hf, hc, by rw [Expr.atomPower_eq]⟩

/-- A monomial of the collection writes the terms that are filed under it. -/
theorem writes_of_mem (apart : Expr.TextsApart es) (hp : p ∈ (ofTerms es).sums) (ht : t ∈ es)
    (hm : t.monomial = p.1) : (ofTerms es).Writes p.1 t := by
  have hover := atoms_ofTerms es
  have hknown := hover.sums p hp
  have proper := t.monomial_proper
  rw [hm] at proper
  intro a n hn
  constructor
  · rintro ⟨q, hq, rfl, rfl⟩
    obtain ⟨htext, hatom⟩ := hover.atom hknown hq
    have hexp := Expr.exponents_monomial apart ht hatom
    rw [hm, htext, (proper.mem_iff.1 hq).2] at hexp
    have : 0 ≤ t.keptExponent ((ofTerms es).atom q.1) := Expr.exponentIn_nonneg _ _
    omega
  · intro h
    obtain ⟨f, hf, hc, rfl⟩ : ∃ f ∈ t.factors, f.isConst = false ∧ f.power.1 = a :=
      Expr.exists_of_exponentIn_ne_zero (h.trans_ne hn.ne')
    have ha : Expr.IsAtomOf es f.power.1 := ⟨t, ht, f, hf, hc, rfl⟩
    have hmem : (f.power.1.text, n) ∈ p.1 := by
      refine proper.mem_iff.2 ⟨hn, ?_⟩
      rw [← hm, Expr.exponents_monomial apart ht ha, h]
    obtain ⟨htext, hatom⟩ := hover.atom hknown hmem
    exact ⟨_, hmem, apart _ _ hatom ha htext, rfl⟩

end Collection

namespace Expr

variable {e e' : Expr κ}

/-- Two like terms and one that is not. -/
def twoLikeTerms : Expr Float :=
  .add (.add (.mul (.const 2) (.pow (.var "x") (.const 3))) (.apply .sin (.var "x")))
    (.mul (.pow (.var "x") (.const 3)) (.const 5))

section Powers

variable {x : String} {c d : κ} {m n : ℤ} {a b : Expr κ} {again : Expr κ → Expr κ}

theorem isZeroConst_of_isConst (h : a.isConst = false) : a.isZeroConst = false := by
  cases a with
  | const c => simp [isConst] at h
  | _ => rfl

theorem simplifySub_of_isConst (h : a.isConst = false) : simplifySub again a b =
    if b.isZeroConst then a
    else if a.same b then ofInt 0
    else if a.isZeroConst then again (.negated b)
    else (Expr.sub a b).collected?.getD (.sub a b) := by
  cases a with
  | const c => simp [isConst] at h
  | _ => rfl

/-- A sum of two terms at least is no number. -/
theorem isSum_toExpr {s : Collection κ} (h : 2 ≤ s.ordered.length) : s.toExpr.isSum = true := by
  have appended (e : Expr κ) (t : Monomial × κ) : (s.appendTerm e t).isSum = true := by
    unfold Collection.appendTerm
    split <;> rfl
  unfold Collection.toExpr
  split
  · rename_i ho
    simp [ho] at h
  · rename_i t ts ho
    cases ts using List.reverseRecOn with
    | nil => simp [ho] at h
    | append_singleton us u =>
        rw [List.foldl_append]
        exact appended _ _

/-- A single factor, a power of a variable. -/
structure IsPowerOf (x : String) (n : ℤ) (e : Expr κ) : Prop where
  factors : e.factors = [e]
  isConst : e.isConst = false
  atomPower : e.atomPower = (.var x, n)
  terms (c : κ) : terms c e = [scaled c e]

variable [ExactNumber κ]

/-- A power of a variable with a positive integer exponent stays one. -/
theorem isPowerOf_simplifyPow (hc : Number.value c = m) (hm : 0 < m) :
    IsPowerOf x (min m maxExponent) (simplifyPow again (.var x) (.const c)) := by
  have hzero : isZero c = false := by
    rw [Bool.eq_false_iff, Ne, isZero_iff_value, hc, Int.cast_eq_zero]
    exact hm.ne'
  by_cases hone : isOne c = true
  · have hm1 : m = 1 := by
      rw [isOne_iff_value, hc] at hone
      exact_mod_cast hone
    have hpow : simplifyPow again (.var x) (.const c) = .var x := by
      simp [simplifyPow, isZeroConst, isOneConst, hzero, hone]
    have hmin : min 1 maxExponent = 1 := by decide
    rw [hpow, hm1, hmin]
    exact ⟨rfl, rfl, rfl, fun _ => rfl⟩
  · have hpow : simplifyPow again (.var x) (.const c) = .pow (.var x) (.const c) := by
      simp [simplifyPow, isZeroConst, isOneConst, hzero, hone]
    have hinteger : integer? c = some m := integer?_eq_some_iff.2 hc
    rw [hpow]
    exact ⟨rfl, rfl, by simp [Expr.atomPower, hinteger, hm, Expr.isConst], fun _ => rfl⟩

/-- The terms of a difference of two powers have the numbers one and minus one. -/
theorem IsPowerOf.collected?_sub (ha : IsPowerOf x m a) (hb : IsPowerOf x n b) :
    ∃ s : Collection κ, (Expr.sub a b).collected? = some s.toExpr ∧
      s.sums = Collection.accumulate [(x, n)] (one * -one) [([(x, m)], one)] := by
  have hone : isOne (one : κ) = true := by
    rw [isOne_iff_value, one, ExactNumber.value_ofInt, Int.cast_one]
  have hminus : isOne (-one : κ) = false := by
    rw [Bool.eq_false_iff, Ne, isOne_iff_value, ExactNumber.value_neg, one,
      ExactNumber.value_ofInt]
    norm_num
  have hterms : Expr.terms one (.sub a b) = [a, .mul (.const (-one)) b] := by
    simp [Expr.terms, ha.terms, hb.terms, scaled, hone, hminus]
  have hfactors : (Expr.mul (.const (-one)) b).factors = [.const (-one), b] := by
    change [Expr.const (-one)] ++ b.factors = _
    rw [hb.factors, List.singleton_append]
  have hfirst : a.monomial = [(x, m)] ∧ a.coefficient = one := by
    rw [monomial, coefficient, ha.factors, Collection.addFactors_cons ha.isConst, ha.atomPower]
    exact ⟨rfl, rfl⟩
  have hsecond : (Expr.mul (.const (-one)) b).monomial = [(x, n)] ∧
      (Expr.mul (.const (-one)) b).coefficient = one * -one := by
    rw [monomial, coefficient, hfactors, Collection.addFactors_const,
      Collection.addFactors_cons hb.isConst, hb.atomPower]
    exact ⟨rfl, rfl⟩
  refine ⟨Collection.ofTerms [a, .mul (.const (-one)) b], by simp [collected?, hterms], ?_⟩
  rw [Collection.ofTerms, List.foldl_cons, List.foldl_cons, List.foldl_nil,
    Collection.addTerm_sums_eq, Collection.addTerm_sums_eq, hfirst.1, hfirst.2, hsecond.1,
    hsecond.2]
  rfl

/-- **When a difference of two powers of a variable vanishes**: when their exponents agree up to the
bound. -/
theorem simplify_sub_powers (hc : Number.value c = m) (hm : 0 < m) (hd : Number.value d = n)
    (hn : 0 < n) :
    simplify (.sub (.pow (.var x) (.const c)) (.pow (.var x) (.const d))) = ofInt 0 ↔
      min m maxExponent = min n maxExponent := by
  have ha : IsPowerOf x (min m maxExponent)
      (simplifyPow (simplifyWithin 6) (.var x) (.const c)) := isPowerOf_simplifyPow hc hm
  have hb : IsPowerOf x (min n maxExponent)
      (simplifyPow (simplifyWithin 6) (.var x) (.const d)) := isPowerOf_simplifyPow hd hn
  have hsimplify : simplify (.sub (.pow (.var x) (.const c)) (.pow (.var x) (.const d))) =
      simplifySub (simplifyWithin 6) (simplifyPow (simplifyWithin 6) (.var x) (.const c))
        (simplifyPow (simplifyWithin 6) (.var x) (.const d)) := rfl
  generalize simplifyPow (simplifyWithin 6) (.var x) (.const c) = a at ha hsimplify
  generalize simplifyPow (simplifyWithin 6) (.var x) (.const d) = b at hb hsimplify
  rw [hsimplify, simplifySub_of_isConst ha.isConst, isZeroConst_of_isConst hb.isConst,
    isZeroConst_of_isConst ha.isConst]
  by_cases hab : a.same b = true
  · have hpowers := ha.atomPower
    rw [same_iff_eq.1 hab, hb.atomPower] at hpowers
    simpa [hab] using (congrArg Prod.snd hpowers).symm
  · obtain ⟨s, hs, hsums⟩ := ha.collected?_sub hb
    have hzero : isZero (one + one * -one : κ) = true := by
      rw [isZero_iff_value, ExactNumber.value_add, ExactNumber.value_mul, ExactNumber.value_neg,
        one, ExactNumber.value_ofInt]
      norm_num
    have hnonzero : isZero (one : κ) = false ∧ isZero (one * -one : κ) = false := by
      rw [Bool.eq_false_iff, Bool.eq_false_iff, Ne, Ne, isZero_iff_value, isZero_iff_value,
        ExactNumber.value_mul, ExactNumber.value_neg, one, ExactNumber.value_ofInt]
      norm_num
    simp only [Bool.false_eq_true, if_false, hab, hs, Option.getD_some]
    by_cases hmn : min m maxExponent = min n maxExponent
    · refine iff_of_true ?_ hmn
      simp [Collection.toExpr, Collection.ordered, hsums, Collection.accumulate, hmn, hzero]
    · refine iff_of_false (fun h => ?_) hmn
      have hlength : 2 ≤ s.ordered.length := by
        simp [Collection.ordered, hsums, Collection.accumulate, hmn, hnonzero]
      have hsum := isSum_toExpr hlength
      rw [h] at hsum
      simp [ofInt, isSum] at hsum

end Powers

/-- The difference of two powers of one variable. -/
def powersApart : Expr Float :=
  .sub (.pow (.var "x") (.const 3000000000)) (.pow (.var "x") (.const 4000000000))

end Expr

end Reckoner
