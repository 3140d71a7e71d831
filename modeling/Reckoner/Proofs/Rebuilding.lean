/-
**Collected terms can be read again.**

A collection writes every term as a product of its number and the powers of its atoms.  Read again,
such a product gives back the number and the monomial, so that a sum that was collected once has
terms with different monomials, numbers other than zero and descending degrees in itself, and not
only in the collection it came from.

Three things could go wrong.  The exponent of an atom is cut down when it is read; an atom that
stands without an exponent could be a product, and come apart into several factors; or it could be a
power, whose exponent would be taken for that of the atom.  The first is excluded by a bound on the
exponents, the others by a condition on the atoms of exponent one.

The text of an atom determines it, so that the collection an atom was remembered in does not matter.
Terms and sums are written here without one.

Main definitions:

* `Reckoner.Expr.ofText` — the expression with a text;
* `Reckoner.Expr.isProduct` — the expressions that have several factors;
* `Reckoner.Expr.writtenTerm`, `Reckoner.Expr.writtenSum` — terms and sums as collections write
  them;
* `Reckoner.Expr.Readable` — a power of an atom that is read as it was written;
* `Reckoner.Expr.Arranged` — a list of terms in the order of a collected sum.

Main results:

* `Reckoner.Collection.toExpr_eq_writtenSum` — collections write such sums;
* `Reckoner.Expr.monomial_writtenTerm`, `Reckoner.Expr.coefficient_writtenTerm` — **a written term
  gives back its monomial and its number**;
* `Reckoner.Expr.arranged_ordered` — what a collection writes down is arranged.
-/

import Reckoner.Proofs.Gathering

set_option autoImplicit false

namespace Reckoner

open Arithmetic (isZero isOne isNegative integer? one)

variable {κ : Type} [Number κ]

namespace Expr

variable {a b e : Expr κ} {m m' : Monomial} {c d : κ} {p : String × ℤ}
variable {l : List (Monomial × κ)}

/-! ### Atoms by their texts -/

open Classical in
/-- The expression of named variables with a text. -/
noncomputable def ofText (κ : Type) [Number κ] (key : String) : Expr κ :=
  if h : ∃ a : Expr κ, Named a ∧ a.text = key then h.choose else .var key

theorem ofText_text [ExactNumber κ] (ha : Named a) : ofText κ a.text = a := by
  have h : ∃ b : Expr κ, Named b ∧ b.text = a.text := ⟨a, ha, rfl⟩
  rw [ofText, dif_pos h]
  exact text_inj h.choose_spec.1 ha h.choose_spec.2

/-! ### Products -/

/-- A product. -/
def isProduct : Expr κ → Bool
  | .mul _ _ => true
  | _ => false

omit [Number κ] in
/-- Anything but a product is its only factor. -/
theorem factors_of_isProduct (h : e.isProduct = false) : e.factors = [e] := by
  cases e with
  | mul a b => simp [isProduct] at h
  | _ => rfl

omit [Number κ] in
/-- No factor is a product. -/
theorem isProduct_of_mem_factors (h : a ∈ e.factors) : a.isProduct = false := by
  induction e with
  | mul b c ihb ihc => exact (List.mem_append.1 h).elim ihb ihc
  | _ => rw [List.mem_singleton.1 h]; rfl

/-! ### Written terms and sums -/

/-- A power of the atom with a text. -/
noncomputable def writtenPower (p : String × ℤ) : Expr κ :=
  if p.2 = 1 then ofText κ p.1 else .pow (ofText κ p.1) (.ofInt p.2)

/-- The term of a monomial and a number. -/
noncomputable def writtenTerm (m : Monomial) (c : κ) : Expr κ :=
  if m.isEmpty then .const c
  else Collection.product
    (if isOne c then m.map writtenPower else .const c :: m.map writtenPower)

/-- One more term on the right of a sum, as a subtraction if its number is negative. -/
noncomputable def appendWritten (sum : Expr κ) (t : Monomial × κ) : Expr κ :=
  if isNegative t.2 then .sub sum (writtenTerm t.1 (-t.2)) else .add sum (writtenTerm t.1 t.2)

/-- The sum of some terms. -/
noncomputable def writtenSum : List (Monomial × κ) → Expr κ
  | [] => ofInt 0
  | t :: ts => ts.foldl appendWritten (writtenTerm t.1 t.2)

@[simp] theorem writtenSum_singleton (t : Monomial × κ) :
    writtenSum [t] = writtenTerm t.1 t.2 := rfl

theorem writtenSum_concat (hl : l ≠ []) (t : Monomial × κ) :
    writtenSum (l ++ [t]) = appendWritten (writtenSum l) t := by
  cases l with
  | nil => exact absurd rfl hl
  | cons u l => simp [writtenSum]

theorem isSum_appendWritten (t : Monomial × κ) : (appendWritten e t).isSum = true := by
  unfold appendWritten
  split <;> rfl

theorem isSum_writtenSum (hl : 2 ≤ l.length) : (writtenSum l).isSum = true := by
  cases l using List.reverseRecOn with
  | nil => simp at hl
  | append_singleton l t =>
      have hne : l ≠ [] := by
        rintro rfl
        simp at hl
      rw [writtenSum_concat hne]
      exact isSum_appendWritten t

end Expr

namespace Collection

variable [ExactNumber κ] {s : Collection κ} {m : Monomial} {Q : Expr κ → Prop}

open Reckoner.Expr (ofText writtenPower writtenTerm appendWritten writtenSum)

/-- A known atom is the expression with its text. -/
theorem Over.atom_eq (hs : s.Over Expr.Named) (hm : s.Knows m) {p : String × ℤ} (hp : p ∈ m) :
    s.atom p.1 = ofText κ p.1 := by
  obtain ⟨htext, hnamed⟩ := hs.atom hm hp
  rw [← Expr.ofText_text hnamed, htext]

theorem Over.term_eq (hs : s.Over Expr.Named) (hm : s.Knows m) (c : κ) :
    s.term m c = writtenTerm m c := by
  have powers : (m.map fun p => s.powerOf p.1 p.2) = m.map writtenPower := by
    refine List.map_congr_left fun p hp => ?_
    rw [powerOf, hs.atom_eq hm hp]
    rfl
  rw [term, powers]
  rfl

/-- **Collections write such sums.** -/
theorem toExpr_eq_writtenSum (hs : s.Over Expr.Named) : s.toExpr = writtenSum s.ordered := by
  have known : ∀ t ∈ s.ordered, s.Knows t.1 := fun t ht => hs.sums t (mem_sums_of_mem_ordered ht)
  have sum (ts : List (Monomial × κ)) (e : Expr κ) (h : ∀ t ∈ ts, s.Knows t.1) :
      ts.foldl s.appendTerm e = ts.foldl appendWritten e := by
    induction ts generalizing e with
    | nil => rfl
    | cons t ts ih =>
        obtain ⟨ht, hts⟩ := List.forall_mem_cons.1 h
        have hstep : s.appendTerm e t = appendWritten e t := by
          rw [appendTerm, hs.term_eq ht, hs.term_eq ht]
          rfl
        rw [List.foldl_cons, List.foldl_cons, hstep, ih _ hts]
  unfold toExpr
  cases ho : s.ordered with
  | nil => rfl
  | cons t ts =>
      rw [ho] at known
      obtain ⟨ht, hts⟩ := List.forall_mem_cons.1 known
      dsimp only [writtenSum]
      rw [sum _ _ hts, hs.term_eq ht]

end Collection

/-! ### Reading a term again -/

namespace Monomial

variable {m m' : Monomial} {key : String} {n : ℤ}

/-- A power whose key is larger than all others comes last. -/
theorem times_last (h : ∀ p ∈ m, p.1 < key) : m.times key n = m ++ [(key, n)] := by
  induction m with
  | nil => rfl
  | cons p m ih =>
      obtain ⟨k, j⟩ := p
      obtain ⟨hk, hm⟩ := List.forall_mem_cons.1 h
      have hne : key ≠ k := fun heq => String.lt_irrefl k (heq ▸ hk)
      have hlt : ¬key < k := String.lt_asymm hk
      rw [Monomial.times, if_neg hne, if_neg hlt, ih hm, List.cons_append]

theorem Proper.of_append (h : (m ++ m').Proper) :
    m.Proper ∧ m'.Proper ∧ ∀ p ∈ m, ∀ q ∈ m', p.1 < q.1 := by
  obtain ⟨hm, hm', hlt⟩ := List.pairwise_append.1 h.increasing
  obtain ⟨pm, pm'⟩ := List.forall_mem_append.1 h.positive
  exact ⟨⟨hm, pm⟩, ⟨hm', pm'⟩, hlt⟩

end Monomial

namespace Expr

variable {a b e : Expr κ} {m m' : Monomial} {c d : κ} {p : String × ℤ} {es : List (Expr κ)}
variable {l : List (Monomial × κ)} {s : Collection κ}

/-- A power of an atom that is read as it was written: the atom is no number, and without an
exponent it is a single factor that is no power of another atom. -/
structure Readable (κ : Type) [Number κ] (p : String × ℤ) : Prop where
  /-- The text is that of an atom. -/
  text : (ofText κ p.1).text = p.1
  /-- The atom has identifiers as names. -/
  named : Named (ofText κ p.1)
  /-- The atom is no number. -/
  isConst : (ofText κ p.1).isConst = false
  /-- Without an exponent the atom is a single factor. -/
  isProduct : p.2 = 1 → (ofText κ p.1).isProduct = false
  /-- Without an exponent the atom is no power of another one. -/
  atomPower : p.2 = 1 → (ofText κ p.1).atomPower = (ofText κ p.1, 1)

theorem Readable.isConst_writtenPower (h : Readable κ p) :
    (writtenPower p : Expr κ).isConst = false := by
  unfold writtenPower
  split
  · exact h.isConst
  · rfl

theorem Readable.factors_writtenPower (h : Readable κ p) :
    (writtenPower p : Expr κ).factors = [writtenPower p] := by
  unfold writtenPower
  split
  · exact factors_of_isProduct (h.isProduct ‹_›)
  · rfl

omit [Number κ] in
theorem factors_foldl_mul (es : List (Expr κ)) (e : Expr κ) :
    (es.foldl .mul e).factors = e.factors ++ es.flatMap factors := by
  induction es generalizing e with
  | nil => simp
  | cons f es ih =>
      have hmul : (Expr.mul e f).factors = e.factors ++ f.factors := rfl
      rw [List.foldl_cons, ih, hmul, List.flatMap_cons, List.append_assoc]

theorem factors_product (hes : es ≠ []) :
    (Collection.product es).factors = es.flatMap factors := by
  cases es with
  | nil => exact absurd rfl hes
  | cons e es => exact factors_foldl_mul es e

/-- The factors of a written term: its number, unless it is one, and the powers of its atoms. -/
theorem factors_writtenTerm (hm : ∀ p ∈ m, Readable κ p) (hne : m ≠ []) (c : κ) :
    (writtenTerm m c).factors = (if isOne c then [] else [.const c]) ++ m.map writtenPower := by
  have hempty : m.isEmpty = false := List.isEmpty_eq_false_iff.2 hne
  have powers : (m.map writtenPower : List (Expr κ)).flatMap factors = m.map writtenPower := by
    rw [List.flatMap_map, List.flatMap_congr fun p hp => (hm p hp).factors_writtenPower]
    exact List.map_eq_flatMap.symm
  have hmap : (m.map writtenPower : List (Expr κ)) ≠ [] := by simpa using hne
  rw [writtenTerm, if_neg (by simp [hempty])]
  split
  · rw [factors_product hmap, powers, List.nil_append]
  · rw [factors_product (List.cons_ne_nil _ _), List.flatMap_cons, powers]
    rfl

section Exact

variable [ExactNumber κ]

theorem integer?_ofInt (n : ℤ) : integer? (Arithmetic.ofInt n : κ) = some n :=
  integer?_eq_some_iff.2 (ExactNumber.value_ofInt n)

/-- A written power is read as it was written. -/
theorem Readable.atomPower_writtenPower (h : Readable κ p) (hpos : 0 < p.2)
    (hle : p.2 ≤ maxExponent) : (writtenPower p : Expr κ).atomPower = (ofText κ p.1, p.2) := by
  unfold writtenPower
  split
  · rename_i hone
    rw [h.atomPower hone, hone]
  · simp [Expr.atomPower, ofInt, integer?_ofInt, hpos, h.isConst, hle]

/-- The powers of a monomial are gathered in it again. -/
theorem addFactors_writtenPowers (hm : ∀ p ∈ m, Readable κ p)
    (hle : ∀ p ∈ m, p.2 ≤ maxExponent) (hp : (m' ++ m).Proper) :
    (Collection.addFactors s c m' (m.map writtenPower)).2 = (c, m' ++ m) := by
  induction m generalizing s m' with
  | nil => simp [Collection.addFactors]
  | cons p m ih =>
      obtain ⟨hread, hm⟩ := List.forall_mem_cons.1 hm
      obtain ⟨hpmax, hle⟩ := List.forall_mem_cons.1 hle
      obtain ⟨-, hproper, hlt⟩ := hp.of_append
      have hpos := (Monomial.proper_cons.1 hproper).2.1
      have hlast : m'.times p.1 p.2 = m' ++ [p] :=
        Monomial.times_last fun q hq => hlt q hq p List.mem_cons_self
      rw [List.append_cons] at hp
      rw [List.map_cons, Collection.addFactors_cons hread.isConst_writtenPower,
        hread.atomPower_writtenPower hpos hpmax, hread.text, hlast, ih hm hle hp,
        ← List.append_cons]

theorem one_mul_number (c : κ) : one * c = c := by
  refine ExactNumber.value_injective ?_
  rw [ExactNumber.value_mul, one, ExactNumber.value_ofInt, Int.cast_one, one_mul]

theorem eq_one_of_isOne (h : isOne c = true) : c = one := by
  refine ExactNumber.value_injective ?_
  rw [isOne_iff_value.1 h, one, ExactNumber.value_ofInt, Int.cast_one]

/-- **A written term gives back its number and its monomial.** -/
theorem addFactors_writtenTerm (hm : ∀ p ∈ m, Readable κ p) (hle : ∀ p ∈ m, p.2 ≤ maxExponent)
    (hp : m.Proper) (c d : κ) :
    (Collection.addFactors s d [] (writtenTerm m c).factors).2 = (d * c, m) := by
  by_cases hne : m = []
  · subst hne
    rfl
  · rw [factors_writtenTerm hm hne]
    split
    · rename_i hone
      rw [List.nil_append, addFactors_writtenPowers hm hle (by simpa using hp), List.nil_append,
        eq_one_of_isOne hone]
      congr 1
      refine ExactNumber.value_injective ?_
      rw [ExactNumber.value_mul, one, ExactNumber.value_ofInt, Int.cast_one, mul_one]
    · rw [List.singleton_append, Collection.addFactors_const,
        addFactors_writtenPowers hm hle (by simpa using hp), List.nil_append]

theorem monomial_writtenTerm (hm : ∀ p ∈ m, Readable κ p) (hle : ∀ p ∈ m, p.2 ≤ maxExponent)
    (hp : m.Proper) (c : κ) : (writtenTerm m c).monomial = m := by
  rw [monomial, addFactors_writtenTerm hm hle hp]

theorem coefficient_writtenTerm (hm : ∀ p ∈ m, Readable κ p)
    (hle : ∀ p ∈ m, p.2 ≤ maxExponent) (hp : m.Proper) (c : κ) :
    (writtenTerm m c).coefficient = c := by
  rw [coefficient, addFactors_writtenTerm hm hle hp, one_mul_number]

end Exact

/-! ### Arranged terms -/

/-- Terms in the order of a collected sum: different monomials that can be read again, numbers other
than zero, and descending degrees. -/
structure Arranged (l : List (Monomial × κ)) : Prop where
  /-- The monomials are in normal form. -/
  proper : ∀ t ∈ l, t.1.Proper
  /-- The monomials can be read again. -/
  readable : ∀ t ∈ l, ∀ p ∈ t.1, Readable κ p
  /-- Every monomial has one number. -/
  distinct : (l.map Prod.fst).Nodup
  /-- No number is zero. -/
  nonzero : ∀ t ∈ l, isZero t.2 = false
  /-- The degrees descend. -/
  descending : l.Pairwise fun t u => u.1.degree ≤ t.1.degree

theorem Arranged.sublist (h : Arranged l) {l' : List (Monomial × κ)} (hl : l'.Sublist l) :
    Arranged l' where
  proper t ht := h.proper t (hl.subset ht)
  readable t ht := h.readable t (hl.subset ht)
  distinct := h.distinct.sublist (hl.map _)
  nonzero t ht := h.nonzero t (hl.subset ht)
  descending := h.descending.sublist hl

/-- What a collection writes down is arranged. -/
theorem arranged_ordered {es : List (Expr κ)}
    (h : ∀ t ∈ es, ∀ p ∈ t.monomial, Readable κ p) : Arranged (Collection.ofTerms es).ordered := by
  have source : ∀ t ∈ (Collection.ofTerms es).ordered, ∃ u ∈ es, u.monomial = t.1 :=
    fun t ht => Collection.exists_monomial_eq (Collection.mem_sums_of_mem_ordered ht)
  have perm := List.mergeSort_perm ((Collection.ofTerms es).sums.filter fun t => !isZero t.2)
    fun t u => u.1.degree ≤ t.1.degree
  constructor
  · intro t ht
    obtain ⟨u, -, hu⟩ := source t ht
    exact hu ▸ u.monomial_proper
  · intro t ht
    obtain ⟨u, hmem, hu⟩ := source t ht
    exact hu ▸ h u hmem
  · exact (perm.map _).nodup_iff.2
      ((Collection.nodup_ofTerms es).sublist (List.filter_sublist.map _))
  · intro t ht
    simpa using (List.mem_filter.1 (perm.mem_iff.1 ht)).2
  · let noLess (t u : Monomial × κ) : Bool := decide (u.1.degree ≤ t.1.degree)
    have sorted := List.pairwise_mergeSort (α := Monomial × κ)
      (fun t u v (h : noLess t u) (h' : noLess u v) => by
        simp only [noLess, decide_eq_true_eq] at *; omega)
      (fun t u => by simp only [noLess, Bool.or_eq_true, decide_eq_true_eq]; omega)
      ((Collection.ofTerms es).sums.filter fun t => !isZero t.2)
    simpa [noLess, Collection.ordered] using sorted

end Expr

end Reckoner
