/-
**Normal forms.**

As long as all exponents are natural numbers and nothing is divided by anything but a number,
simplified expressions have a normal form.  A product is at most one number, which is neither zero
nor one, and after it factors of different bases that are no products themselves; the exponent of a
power is two at least, and its base is no power; and no term of a sum is a bare sum again.

Negative exponents would spoil this.  Two powers of one base can then be merged to the exponent one,
and the base is left as a factor even when it is a product with a number of its own.  Two numbers in
one product may have the product one, and where nothing but a sum is left beside them, collecting
takes the sum for an atom and writes it down as a term.

Main definitions:

* `Reckoner.Expr.Normal` — normal forms;
* `Reckoner.Expr.NormalSum` — the terms of a sum in normal form;
* `Reckoner.Expr.NormalTerms` — terms that are collected to a normal form.

Main results:

* `Reckoner.Expr.Normal.settled` — normal forms have the shape of simplified expressions;
* `Reckoner.Expr.normal_writtenTerm` — a term of atoms in normal form is in normal form;
* `Reckoner.Expr.normalTerms_terms` — **no term of a normal form is a bare sum**;
* `Reckoner.Expr.NormalTerms.normal_toExpr` — like terms are collected to a normal form.
-/

import Reckoner.Proofs.Settled

set_option autoImplicit false

namespace Reckoner

theorem Monomial.degree_times (m : Monomial) (key : String) (n : ℤ) :
    (m.times key n).degree = m.degree + n := by
  have cons (p : String × ℤ) (m : Monomial) : Monomial.degree (p :: m) = p.2 + m.degree := rfl
  induction m with
  | nil => simp [Monomial.times, Monomial.degree]
  | cons p m ih =>
      obtain ⟨k, j⟩ := p
      unfold Monomial.times
      split
      · rw [cons, cons]
        dsimp only
        omega
      · split
        · simp only [cons]
          omega
        · rw [cons, cons, ih]
          omega

namespace Expr

open Arithmetic (isZero isOne isNegative integer? one)

variable {κ : Type} [Number κ]

/-! ### Normal forms -/

/-- An expression that is no power; it is its own base. -/
def IsBase (e : Expr κ) : Prop := e.baseAndExponent = (e, ofInt 1)

/-- Normal forms. -/
inductive Normal : Expr κ → Prop
  | var (x : String) : Normal (.var x)
  | const (c : κ) : Normal (.const c)
  | sum {l : List (Monomial × κ)} : Arranged l → 2 ≤ l.length →
      (∀ t ∈ l, ∀ p ∈ t.1, Normal (ofText κ p.1)) →
      (∀ t ∈ l, ∀ p ∈ t.1, IsBase (ofText κ p.1)) →
      (∀ t ∈ l, ∀ key, t.1 = [(key, 1)] → (ofText κ key).isSum = false) → Normal (writtenSum l)
  | mul {a b : Expr κ} : Normal a → Normal b → b.isConst = false → b.isProduct = false →
      a.isZeroConst = false → a.isOneConst = false →
      (∀ f ∈ a.factors, f.isConst = false → f.baseAndExponent.1 ≠ b.baseAndExponent.1) →
      Normal (.mul a b)
  | div {a : Expr κ} {d : κ} : Normal a →
      (∀ again, simplifyDiv again a (.const d) = .div a (.const d)) → Normal (.div a (.const d))
  | pow {a : Expr κ} {n : ℕ} : Normal a → a.isConst = false → IsBase a → 2 ≤ n →
      Normal (.pow a (ofInt n))
  | apply {f : Elementary} {a : Expr κ} : Normal a → simplifyApply f a = .apply f a →
      Normal (.apply f a)

variable {a b e f : Expr κ} {c d : κ} {m : Monomial} {l : List (Monomial × κ)}
variable {es : List (Expr κ)} {n : ℕ} {again : Expr κ → Expr κ}

theorem isBase_var (x : String) : IsBase (.var x : Expr κ) := rfl

theorem isBase_of_isSum (h : e.isSum = true) : IsBase e := by
  cases e with
  | add a b => rfl
  | sub a b => rfl
  | _ => simp [isSum] at h

theorem Normal.of_mul (h : Normal (.mul a b)) : Normal a ∧ Normal b ∧ b.isConst = false ∧
    b.isProduct = false ∧ a.isZeroConst = false ∧ a.isOneConst = false ∧
    ∀ f ∈ a.factors, f.isConst = false → f.baseAndExponent.1 ≠ b.baseAndExponent.1 := by
  generalize he : Expr.mul a b = e at h
  cases h with
  | mul ha hb hconst hproduct hzero hone hnew =>
      obtain ⟨rfl, rfl⟩ := Expr.mul.inj he
      exact ⟨ha, hb, hconst, hproduct, hzero, hone, hnew⟩
  | sum _ hlength _ _ _ =>
      have := isSum_writtenSum hlength
      rw [← he] at this
      simp [isSum] at this
  | _ => simp at he

theorem Normal.of_pow (h : Normal (.pow a b)) : Normal a ∧ a.isConst = false ∧ IsBase a ∧
    ∃ n : ℕ, 2 ≤ n ∧ b = ofInt n := by
  generalize he : Expr.pow a b = e at h
  cases h with
  | @pow a' n ha hconst hbase hn =>
      obtain ⟨rfl, rfl⟩ := Expr.pow.inj he
      exact ⟨ha, hconst, hbase, n, hn, rfl⟩
  | sum _ hlength _ _ _ =>
      have := isSum_writtenSum hlength
      rw [← he] at this
      simp [isSum] at this
  | _ => simp at he

section Exact

variable [ExactNumber κ]

/-- A normal form has the shape of simplified expressions. -/
theorem Normal.settled (h : Normal e) : Settled e := by
  induction h with
  | var x => exact .var x
  | const c => exact .const c
  | sum harranged hlength _ _ _ ih => exact .sum harranged hlength ih
  | mul _ _ _ _ _ _ _ iha ihb => exact iha.mul ihb
  | div _ hkept iha => exact iha.div (.const _) hkept
  | @pow a n _ hconst _ hn iha =>
      refine iha.pow (.ofInt _) (isOneConst_of_isConst hconst) (isZeroConst_ofInt (by omega)) ?_
      rw [Bool.eq_false_iff, Ne, isOneConst_ofInt]
      omega
  | apply _ hkept iha => exact iha.apply hkept

/-! ### Products of different bases -/

/-- A factor of a product in normal form, other than a number. -/
structure NormalFactor (f : Expr κ) : Prop where
  normal : Normal f
  isConst : f.isConst = false
  isProduct : f.isProduct = false

omit [ExactNumber κ] in
theorem NormalFactor.factors_eq (h : NormalFactor f) : f.factors = [f] :=
  factors_of_isProduct h.isProduct

omit [ExactNumber κ] in
/-- Factors of new and different bases are multiplied to a normal form. -/
theorem normal_foldl_mul (hes : ∀ f ∈ es, NormalFactor f) (he : Normal e)
    (hzero : e.isZeroConst = false) (hone : e.isOneConst = false)
    (hnodup : (es.map fun f => f.baseAndExponent.1).Nodup)
    (hnew : ∀ f ∈ e.factors, f.isConst = false →
      ∀ g ∈ es, f.baseAndExponent.1 ≠ g.baseAndExponent.1) : Normal (es.foldl .mul e) := by
  induction es generalizing e with
  | nil => exact he
  | cons g es ih =>
      obtain ⟨hg, hes⟩ := List.forall_mem_cons.1 hes
      obtain ⟨hgnew, hnodup⟩ := List.nodup_cons.1 hnodup
      have hmul : Normal (.mul e g) := .mul he hg.normal hg.isConst hg.isProduct hzero hone
        fun f hf hc => hnew f hf hc g List.mem_cons_self
      refine ih hes hmul rfl rfl hnodup fun f hf hc k hk => ?_
      rcases List.mem_append.1 hf with hf | hf
      · exact hnew f hf hc k (List.mem_cons_of_mem _ hk)
      · rw [hg.factors_eq, List.mem_singleton] at hf
        subst hf
        exact fun heq => hgnew (List.mem_map.2 ⟨k, hk, heq.symm⟩)

omit [ExactNumber κ] in
/-- Factors of different bases have a product in normal form. -/
theorem normal_factors (hes : ∀ f ∈ es, NormalFactor f)
    (hnodup : (es.map fun f => f.baseAndExponent.1).Nodup) : Normal (Collection.product es) := by
  cases es with
  | nil => exact .const _
  | cons e es =>
      obtain ⟨he, hes⟩ := List.forall_mem_cons.1 hes
      obtain ⟨hnew, hnodup⟩ := List.nodup_cons.1 hnodup
      refine normal_foldl_mul hes he.normal (isZeroConst_of_isConst he.isConst)
        (isOneConst_of_isConst he.isConst) hnodup fun f hf _ g hg heq => hnew ?_
      rw [he.factors_eq, List.mem_singleton] at hf
      exact List.mem_map.2 ⟨g, hg, hf ▸ heq.symm⟩

omit [ExactNumber κ] in
/-- So do a number and factors of different bases. -/
theorem normal_const_factors (hes : ∀ f ∈ es, NormalFactor f)
    (hnodup : (es.map fun f => f.baseAndExponent.1).Nodup) (hzero : isZero c = false)
    (hone : isOne c = true → es = []) : Normal (Collection.product (.const c :: es)) := by
  cases hc : isOne c with
  | true =>
      rw [hone hc]
      exact .const c
  | false =>
      refine normal_foldl_mul hes (.const c) hzero hc hnodup fun f hf hconst => ?_
      rw [List.mem_singleton.1 hf] at hconst
      simp [isConst] at hconst

/-! ### Written terms -/

omit [ExactNumber κ] in
theorem base_writtenPower {p : String × ℤ} (hbase : IsBase (ofText κ p.1)) :
    (writtenPower p : Expr κ).baseAndExponent.1 = ofText κ p.1 := by
  unfold writtenPower
  split
  · rw [hbase]
  · rfl

omit [ExactNumber κ] in
theorem normalFactor_writtenPower {p : String × ℤ} (hpos : 0 < p.2) (hread : Readable κ p)
    (hnormal : Normal (ofText κ p.1)) (hbase : IsBase (ofText κ p.1)) :
    NormalFactor (writtenPower p : Expr κ) := by
  unfold writtenPower
  split
  · rename_i hone
    exact ⟨hnormal, hread.isConst, hread.isProduct hone⟩
  · obtain ⟨n, hn⟩ := Int.eq_ofNat_of_zero_le hpos.le
    rw [hn]
    exact ⟨.pow hnormal hread.isConst hbase (by omega), rfl, rfl⟩

omit [ExactNumber κ] in
/-- A term of atoms in normal form is in normal form. -/
theorem normal_writtenTerm (hproper : m.Proper) (hread : ∀ p ∈ m, Readable κ p)
    (hatoms : ∀ p ∈ m, Normal (ofText κ p.1)) (hbases : ∀ p ∈ m, IsBase (ofText κ p.1))
    (hc : isZero c = false) : Normal (writtenTerm m c) := by
  have powers : ∀ f ∈ m.map writtenPower, NormalFactor (f : Expr κ) := by
    intro f hf
    obtain ⟨p, hp, rfl⟩ := List.mem_map.1 hf
    exact normalFactor_writtenPower (hproper.positive p hp) (hread p hp) (hatoms p hp)
      (hbases p hp)
  -- different keys are the texts of different atoms
  have nodup : ((m.map writtenPower).map fun f : Expr κ => f.baseAndExponent.1).Nodup := by
    rw [List.map_map]
    refine List.Pairwise.map _ (R := fun p q : String × ℤ => p ∈ m ∧ q ∈ m ∧ p.1 < q.1) ?_ ?_
    · rintro p q ⟨hp, hq, hlt⟩ heq
      simp only [Function.comp_apply] at heq
      rw [base_writtenPower (hbases p hp), base_writtenPower (hbases q hq)] at heq
      rw [← (hread p hp).text, ← (hread q hq).text, heq] at hlt
      exact String.lt_irrefl _ hlt
    · exact hproper.increasing.imp_of_mem fun hp hq hlt => ⟨hp, hq, hlt⟩
  unfold writtenTerm
  split
  · exact .const c
  · split
    · exact normal_factors powers nodup
    · rename_i hone
      exact normal_const_factors powers nodup hc fun h => absurd h hone

/-- Arranged terms of atoms in normal form, none of them a bare sum. -/
structure NormalSum (l : List (Monomial × κ)) : Prop where
  arranged : Arranged l
  normal : ∀ t ∈ l, ∀ p ∈ t.1, Normal (ofText κ p.1)
  isBase : ∀ t ∈ l, ∀ p ∈ t.1, IsBase (ofText κ p.1)
  lone : ∀ t ∈ l, ∀ key, t.1 = [(key, 1)] → (ofText κ key).isSum = false

namespace NormalSum

omit [ExactNumber κ] in
theorem sublist (h : NormalSum l) {l' : List (Monomial × κ)} (hl : l'.Sublist l) : NormalSum l' where
  arranged := h.arranged.sublist hl
  normal t ht := h.normal t (hl.subset ht)
  isBase t ht := h.isBase t (hl.subset ht)
  lone t ht := h.lone t (hl.subset ht)

omit [ExactNumber κ] in
theorem normal_term (h : NormalSum l) {t : Monomial × κ} (ht : t ∈ l) (hc : isZero c = false) :
    Normal (writtenTerm t.1 c) :=
  normal_writtenTerm (h.arranged.proper t ht) (h.arranged.readable t ht) (h.normal t ht)
    (h.isBase t ht) hc

omit [ExactNumber κ] in
/-- The sum of such terms is in normal form, also when there are less than two. -/
theorem normal_writtenSum (h : NormalSum l) : Normal (writtenSum l) := by
  cases l with
  | nil => exact .const _
  | cons t ts =>
      cases ts with
      | nil =>
          have ht := List.mem_cons_self (a := t) (l := [])
          exact h.normal_term ht (h.arranged.nonzero t ht)
      | cons u us => exact .sum h.arranged (by simp) h.normal h.isBase h.lone

end NormalSum

/-! ### Parts of normal forms -/

omit [ExactNumber κ] in
theorem Normal.of_isSum (h : Normal e) (hsum : e.isSum = true) :
    ∃ l, e = writtenSum l ∧ 2 ≤ l.length ∧ NormalSum l := by
  cases h with
  | @sum l harranged hlength hatoms hbases hlone =>
      exact ⟨l, rfl, hlength, harranged, hatoms, hbases, hlone⟩
  | _ => simp [isSum] at hsum

omit [ExactNumber κ] in
/-- A sum in normal form consists of a normal form and one more term. -/
theorem Normal.exists_append (h : Normal e) (hsum : e.isSum = true) : ∃ e' t,
    e = appendWritten e' t ∧ Normal e' ∧ isZero t.2 = false ∧
      ∀ c, isZero c = false → Normal (writtenTerm (κ := κ) t.1 c) := by
  obtain ⟨l, rfl, hlength, hl⟩ := h.of_isSum hsum
  cases l using List.reverseRecOn with
  | nil => simp at hlength
  | append_singleton l t =>
      have hne : l ≠ [] := by
        rintro rfl
        simp at hlength
      have ht : t ∈ l ++ [t] := by simp
      exact ⟨writtenSum l, t, writtenSum_concat hne t,
        (hl.sublist (List.sublist_append_left _ _)).normal_writtenSum, hl.arranged.nonzero t ht,
        fun c hc => hl.normal_term ht hc⟩

theorem isZero_neg (c : κ) : isZero (-c) = isZero c := by
  rw [Bool.eq_iff_iff, isZero_iff_value, isZero_iff_value, ExactNumber.value_neg, neg_eq_zero]

/-- The operands of sums, products and powers in normal form are normal forms. -/
theorem hereditary_normal : Hereditary (κ := κ) Normal where
  add {a b} h := by
    obtain ⟨e, t, heq, he, hc, ht⟩ := h.exists_append rfl
    unfold appendWritten at heq
    split at heq
    · simp at heq
    · obtain ⟨rfl, rfl⟩ := Expr.add.inj heq
      exact ⟨he, ht _ hc⟩
  sub {a b} h := by
    obtain ⟨e, t, heq, he, hc, ht⟩ := h.exists_append rfl
    unfold appendWritten at heq
    split at heq
    · obtain ⟨rfl, rfl⟩ := Expr.sub.inj heq
      exact ⟨he, ht _ (by rw [isZero_neg, hc])⟩
    · simp at heq
  mul {a b} h := ⟨h.of_mul.1, h.of_mul.2.1⟩
  pow {a b} h := by
    obtain ⟨ha, -, -, n, -, rfl⟩ := h.of_pow
    exact ⟨ha, .const _⟩

/-- What a normal form is a power of. -/
theorem Normal.power_eq (h : Normal f) :
    (∃ a, ∃ n : ℕ, 2 ≤ n ∧ f = .pow a (ofInt n) ∧ f.power = (a, (n : ℤ))) ∨
      f.power = (f, 1) ∧ IsBase f := by
  cases f with
  | pow a b =>
      obtain ⟨-, hconst, -, n, hn, rfl⟩ := h.of_pow
      refine .inl ⟨a, n, hn, rfl, ?_⟩
      have hpos : 0 < n := by omega
      simp [power, ofInt, integer?_ofInt, hpos, hconst]
  | _ => exact .inr ⟨rfl, rfl⟩

/-- The atoms of a normal form are in normal form, and no powers. -/
theorem Normal.atom (h : Normal f) : Normal f.power.1 ∧ IsBase f.power.1 := by
  obtain ⟨a, n, -, rfl, hpower⟩ | ⟨hpower, hbase⟩ := h.power_eq
  · rw [hpower]
    exact ⟨h.of_pow.1, h.of_pow.2.2.1⟩
  · rw [hpower]
    exact ⟨h, hbase⟩

omit [ExactNumber κ] in
/-- A product in normal form has a factor that is no number. -/
theorem Normal.exists_factor (h : Normal e) (hc : e.isConst = false) :
    ∃ f ∈ e.factors, f.isConst = false := by
  cases e with
  | mul a b =>
      obtain ⟨-, -, hb, hproduct, -⟩ := h.of_mul
      refine ⟨b, List.mem_append_right _ ?_, hb⟩
      rw [factors_of_isProduct hproduct]
      exact List.mem_singleton_self b
  | _ => exact ⟨_, List.mem_singleton_self _, hc⟩

/-! ### Terms of normal forms -/

/-- The factors of a product other than numbers. -/
def properFactors (e : Expr κ) : List (Expr κ) := e.factors.filter fun f => !f.isConst

omit [Number κ] [ExactNumber κ] in
@[simp] theorem properFactors_mul (a b : Expr κ) :
    (Expr.mul a b).properFactors = a.properFactors ++ b.properFactors :=
  List.filter_append _ _

omit [Number κ] [ExactNumber κ] in
@[simp] theorem properFactors_const (c : κ) : (Expr.const c).properFactors = [] := rfl

omit [Number κ] [ExactNumber κ] in
theorem properFactors_of_isProduct (hproduct : e.isProduct = false) (hc : e.isConst = false) :
    e.properFactors = [e] := by
  simp [properFactors, factors_of_isProduct hproduct, hc]

omit [ExactNumber κ] in
@[simp] theorem properFactors_scaled (c : κ) (e : Expr κ) :
    (scaled c e).properFactors = e.properFactors := by
  unfold scaled
  split
  · rfl
  · simp

omit [ExactNumber κ] in
/-- The degree of a term counts each of these factors at least once. -/
theorem length_le_degree {s : Collection κ} (hm : ∀ p ∈ m, 0 < p.2) :
    m.degree + (es.filter fun f => !f.isConst).length ≤
      (Collection.addFactors s c m es).2.2.degree := by
  induction es generalizing s c m with
  | nil => simp [Collection.addFactors]
  | cons f es ih =>
      cases hc : f.isConst with
      | true =>
          obtain ⟨d, rfl⟩ := exists_const_of_isConst hc
          rw [Collection.addFactors_const, List.filter_cons_of_neg (by simp [isConst])]
          exact ih hm
      | false =>
          have hpos : 0 < f.atomPower.2 := by
            rw [atomPower_eq]
            exact f.kept_pos
          have hgrown : ∀ p ∈ m.times f.atomPower.1.text f.atomPower.2, 0 < p.2 :=
            Monomial.positive_times hm hpos
          have hrest := ih (s := s.remember f.atomPower.1.text f.atomPower.1) (c := c) hgrown
          rw [Monomial.degree_times] at hrest
          rw [Collection.addFactors_cons hc, List.filter_cons_of_pos (by simp [hc]),
            List.length_cons]
          push_cast
          omega

omit [ExactNumber κ] in
/-- A term with the first power of a single atom has a single factor other than numbers. -/
theorem exists_lone_factor {key : String} (h : e.monomial = [(key, 1)]) :
    ∃ f, e.properFactors = [f] ∧ f.power.1.text = key ∧ f.power.2 = 1 := by
  obtain ⟨f, hf, hc, htext, hle⟩ :=
    exists_atom_of_mem_monomial (p := (key, 1)) (h ▸ List.mem_singleton_self _)
  have hmem : f ∈ e.properFactors := List.mem_filter.2 ⟨hf, by simp [hc]⟩
  have hlength : e.properFactors.length ≤ 1 := by
    have hle : Monomial.degree [] + (e.properFactors.length : ℤ) ≤ e.monomial.degree :=
      length_le_degree (by simp)
    rw [h] at hle
    simpa [Monomial.degree] using hle
  obtain ⟨g, hg⟩ := List.length_eq_one_iff.1 (le_antisymm hlength (List.length_pos_of_mem hmem))
  rw [hg, List.mem_singleton] at hmem
  have hmax : 1 < maxExponent := by decide
  have := f.kept_pos
  exact ⟨f, hmem ▸ hg, htext, by dsimp only at hle; omega⟩

/-- Terms that are collected to a normal form: their factors are in normal form, and none of them is
a bare sum. -/
structure NormalTerms (es : List (Expr κ)) : Prop where
  /-- The factors are in normal form. -/
  factors : ∀ t ∈ es, ∀ f ∈ t.factors, f.isConst = false → Normal f ∧ Named f
  /-- No term is a bare sum. -/
  lone : ∀ t ∈ es, ∀ key, t.monomial = [(key, 1)] → (ofText κ key).isSum = false

/-- A single factor other than a sum gives no bare sum. -/
theorem lone_of_properFactors {t : Expr κ} (hf : Normal f) (hnamed : Named f)
    (hsum : f.isSum = false) (h : t.properFactors = [f]) {key : String}
    (hkey : t.monomial = [(key, 1)]) : (ofText κ key).isSum = false := by
  obtain ⟨g, hg, htext, hone⟩ := exists_lone_factor hkey
  obtain rfl : f = g := by simpa using h.symm.trans hg
  rw [hf.settled.power_eq hone] at htext
  rw [← htext, ofText_text hnamed, hsum]

/-- **No term of a normal form is a bare sum.** -/
theorem normalTerms_terms (h : Normal e) (hnamed : Named e) (c : κ) : NormalTerms (terms c e) := by
  refine ⟨fun t ht f hf hc => ⟨hereditary_normal.terms h c t ht f hf hc,
    hereditary_named.terms hnamed c t ht f hf hc⟩, ?_⟩
  fun_induction terms c e with
  | case1 c a b iha ihb =>
      obtain ⟨ha, hb⟩ := hereditary_normal.add h
      obtain ⟨hna, hnb⟩ := onlyNames_add.1 hnamed
      exact List.forall_mem_append.2 ⟨iha ha hna, ihb hb hnb⟩
  | case2 c a b iha ihb =>
      obtain ⟨ha, hb⟩ := hereditary_normal.sub h
      obtain ⟨hna, hnb⟩ := onlyNames_sub.1 hnamed
      exact List.forall_mem_append.2 ⟨iha ha hna, ihb hb hnb⟩
  | case3 c d => simp [monomial, Expr.factors, Collection.addFactors]
  | case4 c d b _ ih => exact ih h.of_mul.2.1 (onlyNames_mul.1 hnamed).2
  | case5 c d b hsum =>
      intro t ht key hkey
      obtain ⟨-, hb, hconst, hproduct, -⟩ := h.of_mul
      rw [List.mem_singleton.1 ht] at hkey
      refine lone_of_properFactors hb (onlyNames_mul.1 hnamed).2 (Bool.eq_false_iff.2 hsum) ?_ hkey
      simp [properFactors_of_isProduct hproduct hconst]
  | case6 c a d _ _ ih => simpa [isConst] using h.of_mul.2.2.1
  | case7 c a d _ _ => simpa [isConst] using h.of_mul.2.2.1
  | case8 c a b hca _ =>
      -- there are two factors at least
      intro t ht key hkey
      obtain ⟨ha, -, hconst, hproduct, -⟩ := h.of_mul
      have hac : a.isConst = false := by
        cases a with
        | const d => exact absurd rfl (hca d)
        | _ => rfl
      obtain ⟨f, hf, hc⟩ := ha.exists_factor hac
      have hmem : f ∈ a.properFactors := List.mem_filter.2 ⟨hf, by simp [hc]⟩
      obtain ⟨g, hg, -⟩ := exists_lone_factor hkey
      rw [List.mem_singleton.1 ht, properFactors_scaled, properFactors_mul,
        properFactors_of_isProduct hproduct hconst, List.append_eq_singleton_iff] at hg
      simp [List.ne_nil_of_mem hmem] at hg
  | case9 c e hadd hsub hconst hmul =>
      intro t ht key hkey
      rw [List.mem_singleton.1 ht] at hkey
      have hshape : e.isSum = false ∧ e.isProduct = false ∧ e.isConst = false := by
        cases e with
        | add a b => exact absurd rfl (hadd a b)
        | sub a b => exact absurd rfl (hsub a b)
        | mul a b => exact absurd rfl (hmul a b)
        | const d => exact absurd rfl (hconst d)
        | _ => exact ⟨rfl, rfl, rfl⟩
      refine lone_of_properFactors h hnamed hshape.1 ?_ hkey
      rw [properFactors_scaled, properFactors_of_isProduct hshape.2.1 hshape.2.2]

namespace NormalTerms

theorem settled (h : NormalTerms es) : SettledTerms es :=
  fun t ht f hf hc => ⟨(h.factors t ht f hf hc).1.settled, (h.factors t ht f hf hc).2⟩

omit [ExactNumber κ] in
theorem append {fs : List (Expr κ)} (hes : NormalTerms es) (hfs : NormalTerms fs) :
    NormalTerms (es ++ fs) :=
  ⟨List.forall_mem_append.2 ⟨hes.factors, hfs.factors⟩,
    List.forall_mem_append.2 ⟨hes.lone, hfs.lone⟩⟩

/-- Such terms are collected to a normal form. -/
theorem normal_toExpr (h : NormalTerms es) : Normal (Collection.ofTerms es).toExpr := by
  have source : ∀ t ∈ (Collection.ofTerms es).ordered, ∃ u ∈ es, u.monomial = t.1 :=
    fun t ht => Collection.exists_monomial_eq (Collection.mem_sums_of_mem_ordered ht)
  have atoms : ∀ t ∈ (Collection.ofTerms es).ordered, ∀ p ∈ t.1,
      Normal (ofText κ p.1) ∧ IsBase (ofText κ p.1) := by
    intro t ht p hp
    obtain ⟨u, hu, hut⟩ := source t ht
    obtain ⟨f, hf, hc, htext, -⟩ := exists_atom_of_mem_monomial (hut ▸ hp)
    obtain ⟨hnormal, hnamed⟩ := h.factors u hu f hf hc
    rw [← htext, ofText_text (hereditary_named.power hnamed)]
    exact hnormal.atom
  rw [Collection.toExpr_eq_writtenSum h.settled.over_named]
  refine NormalSum.normal_writtenSum ⟨h.settled.arranged, fun t ht p hp => (atoms t ht p hp).1,
    fun t ht p hp => (atoms t ht p hp).2, fun t ht key hkey => ?_⟩
  obtain ⟨u, hu, hut⟩ := source t ht
  exact h.lone u hu key (hut.trans hkey)

theorem normal_collected (h : NormalTerms (e.terms one)) (hlength : 2 ≤ (e.terms one).length) :
    Normal (e.collected?.getD e) := by
  unfold collected?
  dsimp only
  rw [if_neg (by omega)]
  exact h.normal_toExpr

end NormalTerms

end Exact

end Expr

end Reckoner
