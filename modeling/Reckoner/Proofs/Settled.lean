/-
**What simplification leaves behind.**

Simplified expressions have a shape of their own: a sum is a collected one, a quotient and a
function are left alone by their rules, and no power has the exponent zero or one.  The shape goes
all the way down, because collecting and merging put simplified parts together again, and because a
rebuilt tree is simplified in its turn.

The proof is one induction about the shape and the weight together.  A rebuilt tree weighs less than
the expression it comes from, as long as the parts it is made of have become no heavier; so the
number of nested passes always suffices, and what is left behind is never a tree that nobody
simplified.

Products are left out of the shape.  The base of a power may be a number, a product or a sum, and
when the exponents of equal bases add up to one such a base becomes a factor as it is.

Main definitions:

* `Reckoner.Expr.Settled` — the shape of simplified expressions;
* `Reckoner.Expr.Simplified` — an expression of this shape that is no heavier than another;
* `Reckoner.Expr.Simplifies` — what simplification needs of the simplification of rebuilt trees.

Main results:

* `Reckoner.Expr.Settled.readable` — the monomials of a settled expression can be read again;
* `Reckoner.Expr.simplified_product` — equal bases are merged inside the shape;
* `Reckoner.Expr.simplified_simplify` — **simplified expressions are settled and no heavier**.
-/

import Reckoner.Proofs.Weights

set_option autoImplicit false

namespace Reckoner.Expr

open Arithmetic (isZero isOne isNegative integer? nearInteger? one)

variable {κ : Type} [Number κ]

/-! ### The shape -/

/-- The shape of simplified expressions. -/
inductive Settled : Expr κ → Prop
  | var (x : String) : Settled (.var x)
  | const (c : κ) : Settled (.const c)
  | sum {l : List (Monomial × κ)} : Arranged l → 2 ≤ l.length →
      (∀ t ∈ l, ∀ p ∈ t.1, Settled (ofText κ p.1)) → Settled (writtenSum l)
  | mul {a b : Expr κ} : Settled a → Settled b → Settled (.mul a b)
  | div {a b : Expr κ} : Settled a → Settled b →
      (∀ again, simplifyDiv again a b = .div a b) → Settled (.div a b)
  | pow {a b : Expr κ} : Settled a → Settled b → a.isOneConst = false → b.isZeroConst = false →
      b.isOneConst = false → Settled (.pow a b)
  | apply {f : Elementary} {a : Expr κ} : Settled a → simplifyApply f a = .apply f a →
      Settled (.apply f a)

variable {a b e f : Expr κ} {c d : κ} {m : Monomial} {l : List (Monomial × κ)}
variable {es : List (Expr κ)} {n : ℕ} {again : Expr κ → Expr κ}

theorem Settled.ofInt (k : ℤ) : Settled (ofInt k : Expr κ) := .const _

theorem isOneConst_of_isConst (h : a.isConst = false) : a.isOneConst = false := by
  cases a with
  | const c => simp [isConst] at h
  | _ => rfl

theorem settled_product (h : ∀ f ∈ es, Settled f) : Settled (Collection.product es) := by
  have fold (es : List (Expr κ)) (e : Expr κ) (he : Settled e) (h : ∀ f ∈ es, Settled f) :
      Settled (es.foldl .mul e) := by
    induction es generalizing e with
    | nil => exact he
    | cons f es ih =>
        obtain ⟨hf, hes⟩ := List.forall_mem_cons.1 h
        exact ih _ (he.mul hf) hes
  cases es with
  | nil => exact .const _
  | cons e es =>
      obtain ⟨he, hes⟩ := List.forall_mem_cons.1 h
      exact fold es e he hes

section Written

variable [ExactNumber κ]

theorem isZeroConst_ofInt {k : ℤ} (h : k ≠ 0) : (ofInt k : Expr κ).isZeroConst = false := by
  rw [ofInt, isZeroConst, Bool.eq_false_iff, Ne, isZero_iff_value, ExactNumber.value_ofInt]
  exact_mod_cast h

theorem isOneConst_ofInt {k : ℤ} : (ofInt k : Expr κ).isOneConst = true ↔ k = 1 := by
  rw [ofInt, isOneConst, isOne_iff_value, ExactNumber.value_ofInt]
  exact_mod_cast Iff.rfl

/-- A term of settled atoms is settled. -/
theorem settled_writtenTerm (hproper : m.Proper) (hread : ∀ p ∈ m, Readable κ p)
    (hatoms : ∀ p ∈ m, Settled (ofText κ p.1)) (c : κ) : Settled (writtenTerm m c) := by
  have powers : ∀ f ∈ m.map writtenPower, Settled (f : Expr κ) := by
    intro f hf
    obtain ⟨p, hp, rfl⟩ := List.mem_map.1 hf
    unfold writtenPower
    split
    · exact hatoms p hp
    · rename_i hone
      refine .pow (hatoms p hp) (.ofInt _) (isOneConst_of_isConst (hread p hp).isConst)
        (isZeroConst_ofInt (hproper.positive p hp).ne') ?_
      rw [Bool.eq_false_iff, Ne, isOneConst_ofInt]
      exact hone
  unfold writtenTerm
  split
  · exact .const c
  · refine settled_product ?_
    split
    · exact powers
    · exact List.forall_mem_cons.2 ⟨.const c, powers⟩

/-- A sum of arranged terms of settled atoms is settled, also when there are less than two. -/
theorem settled_writtenSum (h : Arranged l)
    (hatoms : ∀ t ∈ l, ∀ p ∈ t.1, Settled (ofText κ p.1)) : Settled (writtenSum l) := by
  cases l with
  | nil => exact .ofInt 0
  | cons t ts =>
      cases ts with
      | nil =>
          have ht := List.mem_cons_self (a := t) (l := [])
          exact settled_writtenTerm (h.proper t ht) (h.readable t ht) (hatoms t ht) t.2
      | cons u us => exact .sum h (by simp) hatoms

/-! ### Parts of settled expressions -/

/-- A settled sum consists of a settled sum and one more term. -/
theorem Settled.exists_append (h : Settled e) (hsum : e.isSum = true) : ∃ e' t,
    e = appendWritten e' t ∧ Settled e' ∧ ∀ c, Settled (writtenTerm (κ := κ) t.1 c) := by
  cases h with
  | @sum l harranged hlength hatoms =>
      cases l using List.reverseRecOn with
      | nil => simp at hlength
      | append_singleton l t =>
          have hne : l ≠ [] := by
            rintro rfl
            simp at hlength
          have ht : t ∈ l ++ [t] := by simp
          refine ⟨writtenSum l, t, writtenSum_concat hne t, ?_, fun c => ?_⟩
          · exact settled_writtenSum (harranged.sublist (List.sublist_append_left _ _))
              fun u hu => hatoms u (List.mem_append_left _ hu)
          · exact settled_writtenTerm (harranged.proper t ht) (harranged.readable t ht)
              (hatoms t ht) c
  | _ => simp [isSum] at hsum

/-- The operands of settled sums, products and powers are settled. -/
theorem hereditary_settled : Hereditary (κ := κ) Settled where
  add {a b} h := by
    obtain ⟨e, t, heq, he, ht⟩ := h.exists_append rfl
    unfold appendWritten at heq
    split at heq
    · simp at heq
    · obtain ⟨rfl, rfl⟩ := Expr.add.inj heq
      exact ⟨he, ht _⟩
  sub {a b} h := by
    obtain ⟨e, t, heq, he, ht⟩ := h.exists_append rfl
    unfold appendWritten at heq
    split at heq
    · obtain ⟨rfl, rfl⟩ := Expr.sub.inj heq
      exact ⟨he, ht _⟩
    · simp at heq
  mul {a b} h := by
    generalize he : Expr.mul a b = e at h
    cases h with
    | mul ha hb =>
        obtain ⟨rfl, rfl⟩ := Expr.mul.inj he
        exact ⟨ha, hb⟩
    | sum _ hlength _ =>
        have := isSum_writtenSum hlength
        rw [← he] at this
        simp [isSum] at this
    | _ => simp at he
  pow {a b} h := by
    generalize he : Expr.pow a b = e at h
    cases h with
    | pow ha hb _ _ _ =>
        obtain ⟨rfl, rfl⟩ := Expr.pow.inj he
        exact ⟨ha, hb⟩
    | sum _ hlength _ =>
        have := isSum_writtenSum hlength
        rw [← he] at this
        simp [isSum] at this
    | _ => simp at he

end Written

theorem Settled.of_pow (h : Settled (.pow a b)) :
    a.isOneConst = false ∧ b.isZeroConst = false ∧ b.isOneConst = false := by
  generalize he : Expr.pow a b = e at h
  cases h with
  | pow _ _ hone hzero hone' =>
      obtain ⟨rfl, rfl⟩ := Expr.pow.inj he
      exact ⟨hone, hzero, hone'⟩
  | sum _ hlength _ =>
      have := isSum_writtenSum hlength
      rw [← he] at this
      simp [isSum] at this
  | _ => simp at he

/-! ### Terms of settled expressions -/

/-- Every factor of some terms that is no number is settled, with identifiers as names. -/
def SettledTerms (es : List (Expr κ)) : Prop :=
  ∀ t ∈ es, ∀ f ∈ t.factors, f.isConst = false → Settled f ∧ Named f

theorem isConst_power (h : f.isConst = false) : f.power.1.isConst = false := by
  fun_cases power f with
  | case1 base c k hk hpos => simpa using (Bool.and_eq_true_iff.1 hpos).2
  | _ => exact h

omit [Number κ] in
theorem hereditary_named : Hereditary (κ := κ) Named :=
  ⟨onlyNames_add.1, onlyNames_sub.1, onlyNames_mul.1, onlyNames_pow.1⟩

section Exact

variable [ExactNumber κ]

/-- A settled factor with the exponent one is no power. -/
theorem Settled.power_eq (h : Settled f) (hone : f.power.2 = 1) : f.power = (f, 1) := by
  fun_cases power f with
  | case1 base c k hk hpos =>
      have hk1 : k = 1 := by simpa [power, hk, hpos] using hone
      rw [hk1, integer?_eq_some_iff, Int.cast_one] at hk
      have hnot := h.of_pow.2.2
      rw [isOneConst, isOne_iff_value.2 hk] at hnot
      simp at hnot
  | _ => rfl

theorem settledTerms_terms (h : Settled e) (hnamed : Named e) (c : κ) :
    SettledTerms (terms c e) := fun t ht f hf hc =>
  ⟨hereditary_settled.terms h c t ht f hf hc, hereditary_named.terms hnamed c t ht f hf hc⟩

namespace SettledTerms

/-- **The monomials of settled terms can be read again**, and their atoms are settled. -/
theorem readable (h : SettledTerms es) {t : Expr κ} (ht : t ∈ es) {p : String × ℤ}
    (hp : p ∈ t.monomial) : Readable κ p ∧ Settled (ofText κ p.1) := by
  obtain ⟨f, hf, hc, htext, hle⟩ := exists_atom_of_mem_monomial hp
  obtain ⟨hsettled, hnamed⟩ := h t ht f hf hc
  have hatom : ofText κ p.1 = f.power.1 := by
    rw [← htext, ofText_text (hereditary_named.power hnamed)]
  -- with the exponent one, the atom is the factor itself
  have single (hone : p.2 = 1) : f.power = (f, 1) := by
    have hmax : 1 < maxExponent := by decide
    have := f.kept_pos
    exact hsettled.power_eq (by omega)
  refine ⟨⟨?_, ?_, ?_, fun hone => ?_, fun hone => ?_⟩, ?_⟩
  · rw [hatom, htext]
  · rw [hatom]
    exact hereditary_named.power hnamed
  · rw [hatom]
    exact isConst_power hc
  · rw [hatom, single hone]
    exact isProduct_of_mem_factors hf
  · rw [hatom, single hone, atomPower_eq, single hone]
    rfl
  · rw [hatom]
    exact hereditary_settled.power hsettled

theorem arranged (h : SettledTerms es) : Arranged (Collection.ofTerms es).ordered :=
  arranged_ordered fun _ ht _ hp => (h.readable ht hp).1

omit [ExactNumber κ] in
theorem over_named (h : SettledTerms es) : Collection.Over Named (Collection.ofTerms es) := by
  refine Collection.ofTerms_over fun t ht f hf hc => ?_
  rw [atomPower_eq]
  exact hereditary_named.power (h t ht f hf hc).2

/-- Settled terms are collected to a settled sum. -/
theorem settled_toExpr (h : SettledTerms es) : Settled (Collection.ofTerms es).toExpr := by
  rw [Collection.toExpr_eq_writtenSum h.over_named]
  refine settled_writtenSum h.arranged fun t ht p hp => ?_
  obtain ⟨u, hu, hut⟩ := Collection.exists_monomial_eq (Collection.mem_sums_of_mem_ordered ht)
  exact (h.readable hu (hut ▸ hp)).2

end SettledTerms

/-! ### Settled and no heavier -/

/-- A settled expression of named variables that is no heavier than another one. -/
structure Simplified (e u : Expr κ) : Prop where
  /-- It is settled. -/
  settled : Settled u
  /-- Its names are identifiers. -/
  named : Named u
  /-- It is no heavier. -/
  weight_le : u.weight ≤ e.weight

omit [ExactNumber κ] in
theorem Simplified.mono {e' u : Expr κ} (h : Simplified e u) (hle : e.weight ≤ e'.weight) :
    Simplified e' u := ⟨h.settled, h.named, h.weight_le.trans hle⟩

omit [ExactNumber κ] in
/-- A number is settled, and weighs nothing. -/
theorem simplified_const (e : Expr κ) (c : κ) : Simplified e (.const c) :=
  ⟨.const c, onlyNames_const c, Nat.zero_le _⟩

/-- Settled terms are collected without additional weight. -/
theorem simplified_collected? {u : Expr κ} (h : SettledTerms (e.terms one))
    (hu : e.collected? = some u) : Simplified e u := by
  unfold collected? at hu
  dsimp only at hu
  split at hu
  · simp at hu
  · obtain rfl := Option.some.inj hu
    refine ⟨h.settled_toExpr, onlyNames_family.toExpr h.over_named, ?_⟩
    have hterms := weights_terms_le one e
    have hsum := weight_writtenSum_ordered fun t ht f hf hc => (h t ht f hf hc).2
    rw [Collection.toExpr_eq_writtenSum h.over_named]
    omega

omit [ExactNumber κ] in
theorem terms_ne_nil (c : κ) (e : Expr κ) : terms c e ≠ [] := by
  fun_induction terms c e <;> simp_all

omit [ExactNumber κ] in
/-- A sum has two terms at least. -/
theorem two_le_length_terms (h : e.isSum = true) (c : κ) : 2 ≤ (terms c e).length := by
  have pos (c : κ) (e : Expr κ) : 0 < (terms c e).length :=
    List.length_pos_iff.2 (terms_ne_nil c e)
  cases e with
  | add a b =>
      have := pos c a
      have := pos c b
      rw [terms, List.length_append]
      omega
  | sub a b =>
      have := pos c a
      have := pos (-c) b
      rw [terms, List.length_append]
      omega
  | _ => simp [isSum] at h

omit [ExactNumber κ] in
/-- What has two terms is collected. -/
theorem exists_collected? (h : 2 ≤ (e.terms one).length) : ∃ u, e.collected? = some u := by
  refine ⟨(Collection.ofTerms (e.terms one)).toExpr, ?_⟩
  unfold collected?
  dsimp only
  rw [if_neg (by omega)]

/-- What has two settled terms at least is collected. -/
theorem simplified_collected (h : SettledTerms (e.terms one)) (hlength : 2 ≤ (e.terms one).length) :
    Simplified e (e.collected?.getD e) := by
  obtain ⟨u, hu⟩ := exists_collected? hlength
  rw [hu]
  exact simplified_collected? h hu

/-! ### Products -/

/-- The simplification of rebuilt trees: sums of numbers are folded, and trees below a weight are
simplified without additional weight. -/
structure Simplifies (again : Expr κ → Expr κ) (n : ℕ) : Prop where
  /-- Sums of numbers are folded. -/
  folds : FoldsSums again
  /-- Lighter trees are simplified. -/
  lighter : ∀ e, Named e → e.weight < n → Simplified e (again e)

/-- The weight of a power among the factors of a product. -/
def powerWeight (p : Expr κ × Expr κ) : ℕ :=
  p.1.weight + p.2.weight + if 1 ≤ p.1.weight ∧ p.2.isOneConst then 0 else 1

/-- The base and the exponent of a settled factor. -/
structure SettledPower (p : Expr κ × Expr κ) : Prop where
  base : Settled p.1
  exponent : Settled p.2
  namedBase : Named p.1
  namedExponent : Named p.2
  isOneConst : p.1.isOneConst = false

omit [ExactNumber κ] in
theorem weight_of_isOneConst (h : e.isOneConst = true) : e.weight = 0 := by
  cases e with
  | const c => rfl
  | _ => simp [isOneConst] at h

omit [ExactNumber κ] in
theorem exists_const_of_isOneConst (h : e.isOneConst = true) : ∃ c, e = .const c := by
  cases e with
  | const c => exact ⟨c, rfl⟩
  | _ => simp [isOneConst] at h

/-- The power that a settled factor is. -/
theorem settledPower_baseAndExponent (hsettled : Settled f) (hnamed : Named f)
    (hc : f.isConst = false) (hproduct : f.isProduct = false) :
    SettledPower f.baseAndExponent ∧ powerWeight f.baseAndExponent ≤ f.weight := by
  have hpos := weight_pos hproduct hc
  unfold baseAndExponent
  split
  · rename_i base exponent
    obtain ⟨hb, he⟩ := hereditary_settled.pow hsettled
    obtain ⟨hnb, hne⟩ := onlyNames_pow.1 hnamed
    obtain ⟨hone, -, hone'⟩ := hsettled.of_pow
    refine ⟨⟨hb, he, hnb, hne, hone⟩, ?_⟩
    simp [powerWeight, hone', weight]
  · refine ⟨⟨hsettled, .ofInt 1, hnamed, onlyNames_ofInt 1, isOneConst_of_isConst hc⟩, ?_⟩
    have hone : (ofInt 1 : Expr κ).isOneConst = true := isOneConst_ofInt.2 rfl
    simp [powerWeight, hone, hpos, weight_of_isOneConst hone]

omit [ExactNumber κ] in
/-- The exponents of an equal base are added without additional weight. -/
theorem settledPower_add (hagain : Simplifies again n) {base exponent exponent' : Expr κ}
    (h : SettledPower (base, exponent)) (h' : SettledPower (base, exponent'))
    (hn : powerWeight (base, exponent) + powerWeight (base, exponent') ≤ n) :
    SettledPower (base, again (.add exponent exponent')) ∧
      powerWeight (base, again (.add exponent exponent')) ≤
        powerWeight (base, exponent) + powerWeight (base, exponent') := by
  have hweight : (Expr.add exponent exponent').weight = exponent.weight + exponent'.weight + 1 := rfl
  have hlight : (Expr.add exponent exponent').weight < n := by
    rw [hweight]
    unfold powerWeight at hn
    dsimp only at hn
    split at hn <;> split at hn <;> omega
  obtain ⟨hsettled, hnamed, hle⟩ :=
    hagain.lighter _ (onlyNames_add.2 ⟨h.namedExponent, h'.namedExponent⟩) hlight
  refine ⟨⟨h.base, hsettled, h.namedBase, hnamed, h.isOneConst⟩, ?_⟩
  by_cases hboth : exponent.isOneConst = true ∧ exponent'.isOneConst = true
  · -- two bare factors: the exponent of their power is a number
    obtain ⟨c, rfl⟩ := exists_const_of_isOneConst hboth.1
    obtain ⟨d, rfl⟩ := exists_const_of_isOneConst hboth.2
    rw [hagain.folds]
    simp only [powerWeight, weight, hboth.1, hboth.2, and_true]
    split <;> split <;> omega
  · dsimp only at hle
    rw [hweight] at hle
    simp only [powerWeight]
    cases hone : exponent.isOneConst with
    | true =>
        have := weight_of_isOneConst hone
        have hone' : exponent'.isOneConst = false := Bool.eq_false_iff.2 fun h => hboth ⟨hone, h⟩
        simp only [hone', and_true, Bool.false_eq_true, and_false, if_false]
        split <;> split <;> omega
    | false =>
        cases hone' : exponent'.isOneConst with
        | true =>
            have := weight_of_isOneConst hone'
            simp only [and_true, Bool.false_eq_true, and_false, if_false]
            split <;> split <;> omega
        | false =>
            simp only [Bool.false_eq_true, and_false, if_false]
            split <;> omega

/-- The weights of the factors of a product together. -/
def powersWeight (ps : List (Expr κ × Expr κ)) : ℕ := (ps.map powerWeight).sum

omit [ExactNumber κ] in
@[simp] theorem powersWeight_nil : powersWeight ([] : List (Expr κ × Expr κ)) = 0 := rfl

omit [ExactNumber κ] in
@[simp] theorem powersWeight_cons (p : Expr κ × Expr κ) (ps : List (Expr κ × Expr κ)) :
    powersWeight (p :: ps) = powerWeight p + powersWeight ps := by
  simp [powersWeight]

theorem settledPower_mergePower (hagain : Simplifies again n) {p : Expr κ × Expr κ}
    {ps : List (Expr κ × Expr κ)} (hps : ∀ q ∈ ps, SettledPower q) (hp : SettledPower p)
    (hn : powersWeight ps + powerWeight p ≤ n) :
    (∀ q ∈ mergePower again p.1 p.2 ps, SettledPower q) ∧
      powersWeight (mergePower again p.1 p.2 ps) ≤ powersWeight ps + powerWeight p := by
  induction ps with
  | nil => simpa [mergePower] using hp
  | cons q ps ih =>
      obtain ⟨hq, hrest⟩ := List.forall_mem_cons.1 hps
      obtain ⟨b, exponent⟩ := q
      obtain ⟨base, exponent'⟩ := p
      rw [powersWeight_cons] at hn ⊢
      simp only [mergePower]
      split
      · rename_i hsame
        obtain rfl := same_iff_eq.1 hsame
        obtain ⟨hsum, hle⟩ := settledPower_add hagain hq hp (by omega)
        refine ⟨List.forall_mem_cons.2 ⟨hsum, hrest⟩, ?_⟩
        rw [powersWeight_cons]
        omega
      · obtain ⟨hmerged, hle⟩ := ih hrest (by omega)
        refine ⟨List.forall_mem_cons.2 ⟨hq, hmerged⟩, ?_⟩
        rw [powersWeight_cons]
        dsimp only at hle
        omega

theorem settledPower_mergeFactors (hagain : Simplifies again n) {ps : List (Expr κ × Expr κ)}
    (hps : ∀ q ∈ ps, SettledPower q)
    (hes : ∀ f ∈ es, f.isConst = false → f.isProduct = false ∧ Settled f ∧ Named f)
    (hn : powersWeight ps + weights es ≤ n) :
    (∀ q ∈ (mergeFactors again c ps es).2, SettledPower q) ∧
      powersWeight (mergeFactors again c ps es).2 ≤ powersWeight ps + weights es := by
  induction es generalizing c ps with
  | nil => exact ⟨hps, le_rfl⟩
  | cons f es ih =>
      obtain ⟨hf, hrest⟩ := List.forall_mem_cons.1 hes
      rw [weights_cons] at hn ⊢
      cases hc : f.isConst with
      | true =>
          obtain ⟨d, rfl⟩ := exists_const_of_isConst hc
          obtain ⟨hmerged, hle⟩ := ih (c := c * d) hps hrest (by omega)
          exact ⟨hmerged, by rw [mergeFactors_const]; omega⟩
      | false =>
          obtain ⟨hproduct, hsettled, hnamed⟩ := hf hc
          obtain ⟨hpower, hweight⟩ := settledPower_baseAndExponent hsettled hnamed hc hproduct
          obtain ⟨hps', hle'⟩ := settledPower_mergePower hagain hps hpower (by omega)
          obtain ⟨hmerged, hle⟩ := ih (c := c) hps' hrest (by omega)
          exact ⟨by rwa [mergeFactors_cons hc], by rw [mergeFactors_cons hc]; omega⟩

omit [ExactNumber κ] in
/-- A factor of a merged product. -/
theorem SettledPower.factor? {p : Expr κ × Expr κ} (hp : SettledPower p)
    (hf : factor? p = some f) : Settled f ∧ Named f ∧ f.weight ≤ powerWeight p := by
  unfold Expr.factor? at hf
  split at hf
  · simp at hf
  · rename_i hzero
    split at hf
    · obtain rfl := Option.some.inj hf
      exact ⟨hp.base, hp.namedBase, by unfold powerWeight; omega⟩
    · rename_i hone
      obtain rfl := Option.some.inj hf
      refine ⟨.pow hp.base hp.exponent hp.isOneConst (Bool.eq_false_iff.2 hzero)
        (Bool.eq_false_iff.2 hone), onlyNames_pow.2 ⟨hp.namedBase, hp.namedExponent⟩, ?_⟩
      simp [powerWeight, hone, weight]

/-- **Equal bases are merged without additional weight.** -/
theorem simplified_product (hagain : Simplifies again n) (hsettled : Settled e) (hnamed : Named e)
    (hn : e.weight ≤ n) : Simplified e (simplifyProduct again e) := by
  have hes : ∀ f ∈ e.factors, f.isConst = false → f.isProduct = false ∧ Settled f ∧ Named f :=
    fun f hf _ => ⟨isProduct_of_mem_factors hf, hereditary_settled.factors hsettled f hf,
      hereditary_named.factors hnamed f hf⟩
  have hnone : ∀ q ∈ ([] : List (Expr κ × Expr κ)), SettledPower q := by simp
  obtain ⟨hmerged, hle⟩ := settledPower_mergeFactors (c := one) hagain hnone hes
    (by rw [powersWeight_nil, weights_factors]; omega)
  rw [powersWeight_nil, weights_factors, zero_add] at hle
  have factors : ∀ (ps : List (Expr κ × Expr κ)), (∀ q ∈ ps, SettledPower q) →
      (∀ f ∈ ps.filterMap Expr.factor?, Settled f ∧ Named f) ∧
        weights (ps.filterMap Expr.factor?) ≤ powersWeight ps := by
    intro ps hps
    induction ps with
    | nil => simp
    | cons p ps ih =>
        obtain ⟨hp, hps⟩ := List.forall_mem_cons.1 hps
        obtain ⟨hfactors, hweight⟩ := ih hps
        rw [List.filterMap_cons, powersWeight_cons]
        cases hf : Expr.factor? p with
        | none => exact ⟨hfactors, by dsimp only; omega⟩
        | some f =>
            obtain ⟨hs, hn, hw⟩ := hp.factor? hf
            exact ⟨List.forall_mem_cons.2 ⟨⟨hs, hn⟩, hfactors⟩, by
              rw [weights_cons]; omega⟩
  obtain ⟨hfactors, hweight⟩ := factors _ hmerged
  unfold simplifyProduct
  dsimp only
  split
  · exact simplified_const e _
  · split
    · exact ⟨settled_product fun f hf => (hfactors f hf).1,
        onlyNames_family.product fun f hf => (hfactors f hf).2,
        by rw [weight_product]; omega⟩
    · refine ⟨settled_product (List.forall_mem_cons.2 ⟨.const _, fun f hf => (hfactors f hf).1⟩),
        onlyNames_family.product
          (List.forall_mem_cons.2 ⟨onlyNames_const _, fun f hf => (hfactors f hf).2⟩), ?_⟩
      rw [weight_product, weights_cons, weight, zero_add]
      omega

/-! ### One operation -/

omit [ExactNumber κ] in
theorem settledTerms_append {fs : List (Expr κ)} (hes : SettledTerms es) (hfs : SettledTerms fs) :
    SettledTerms (es ++ fs) := List.forall_mem_append.2 ⟨hes, hfs⟩

theorem simplified_add (ha : Settled a) (hb : Settled b) (hna : Named a) (hnb : Named b) :
    Simplified (.add a b) (simplifyAdd a b) := by
  have hterms : SettledTerms ((Expr.add a b).terms one) :=
    settledTerms_append (settledTerms_terms ha hna one) (settledTerms_terms hb hnb one)
  unfold simplifyAdd
  split
  · exact simplified_const _ _
  · split
    · exact ⟨hb, hnb, by rw [weight]; omega⟩
    · split
      · exact ⟨ha, hna, by rw [weight]; omega⟩
      · exact simplified_collected hterms (two_le_length_terms rfl one)

theorem simplified_sub (hagain : Simplifies again n) (ha : Settled a) (hb : Settled b)
    (hna : Named a) (hnb : Named b) (hn : (Expr.sub a b).weight ≤ n) :
    Simplified (.sub a b) (simplifySub again a b) := by
  have hterms : SettledTerms ((Expr.sub a b).terms one) :=
    settledTerms_append (settledTerms_terms ha hna one) (settledTerms_terms hb hnb (-one))
  have hweight : (Expr.sub a b).weight = a.weight + b.weight + 1 := rfl
  have hnegated : b.negated.weight = b.weight := by simp [negated, ofInt, weight]
  unfold simplifySub
  split
  · exact simplified_const _ _
  · split
    · exact ⟨ha, hna, by omega⟩
    · split
      · exact simplified_const _ _
      · split
        · exact (hagain.lighter _ (onlyNames_negated.2 hnb) (by omega)).mono (by omega)
        · exact simplified_collected hterms (two_le_length_terms rfl one)

theorem simplified_mul (hagain : Simplifies again n) (ha : Settled a) (hb : Settled b)
    (hna : Named a) (hnb : Named b) (hn : (Expr.mul a b).weight ≤ n) :
    Simplified (.mul a b) (simplifyMul again a b) := by
  have hweight : (Expr.mul a b).weight = a.weight + b.weight := rfl
  unfold simplifyMul
  split
  · exact simplified_const _ _
  · split
    · exact simplified_const _ _
    · split
      · exact ⟨hb, hnb, by omega⟩
      · split
        · exact ⟨ha, hna, by omega⟩
        · split
          · -- a number is multiplied out over a sum
            rename_i hboth
            obtain ⟨hconst, hsum⟩ := Bool.and_eq_true_iff.1 hboth
            obtain ⟨c, rfl⟩ := exists_const_of_isConst hconst
            have hterms : (Expr.mul (.const c) b).terms one = b.terms (one * c) := by
              rw [terms, if_pos hsum]
            refine simplified_collected ?_ ?_
            · rw [hterms]
              exact settledTerms_terms hb hnb _
            · rw [hterms]
              exact two_le_length_terms hsum _
          · exact simplified_product hagain (ha.mul hb) (onlyNames_mul.2 ⟨hna, hnb⟩) hn

omit [ExactNumber κ] in
theorem weight_baseAndExponent_le (e : Expr κ) :
    e.baseAndExponent.1.weight + e.baseAndExponent.2.weight ≤ e.weight := by
  unfold baseAndExponent
  split <;> simp [weight, ofInt]

omit [ExactNumber κ] in
/-- A quotient is left alone for every simplification of rebuilt trees, or a lighter tree is
simplified in its place. -/
theorem simplified_quotientOfPowers (hagain : Simplifies again n) (hna : Named a) (hnb : Named b)
    (hn : (Expr.div a b).weight ≤ n) :
    (∀ again', simplifyQuotientOfPowers again' a b = .div a b) ∨
      Simplified (.div a b) (simplifyQuotientOfPowers again a b) := by
  have hweight : (Expr.div a b).weight = a.weight + b.weight + 3 := rfl
  have hwa := a.weight_baseAndExponent_le
  have hwb := b.weight_baseAndExponent_le
  obtain ⟨hbase, hm⟩ := onlyNames_baseAndExponent hna
  obtain ⟨-, hk⟩ := onlyNames_baseAndExponent hnb
  by_cases hsame : (a.baseAndExponent.1.same b.baseAndExponent.1 &&
      !a.baseAndExponent.1.isConst) = true
  · right
    have hsub : (Expr.sub a.baseAndExponent.2 b.baseAndExponent.2).weight =
        a.baseAndExponent.2.weight + b.baseAndExponent.2.weight + 1 := rfl
    obtain ⟨-, hnamed, hle⟩ := hagain.lighter _ (onlyNames_sub.2 ⟨hm, hk⟩) (by omega)
    have hpow : (Expr.pow a.baseAndExponent.1
        (again (.sub a.baseAndExponent.2 b.baseAndExponent.2))).weight =
        a.baseAndExponent.1.weight +
          (again (.sub a.baseAndExponent.2 b.baseAndExponent.2)).weight + 1 := rfl
    unfold simplifyQuotientOfPowers
    dsimp only
    rw [if_pos hsame]
    exact (hagain.lighter _ (onlyNames_pow.2 ⟨hbase, hnamed⟩) (by omega)).mono (by omega)
  · left
    intro again'
    unfold simplifyQuotientOfPowers
    dsimp only
    rw [if_neg hsame]

omit [ExactNumber κ] in
/-- A quotient by anything but a number. -/
theorem simplifyDiv_of_isConst (h : b.isConst = false) (again : Expr κ → Expr κ) :
    simplifyDiv again a b =
      if a.isZeroConst then ofInt 0
      else if b.isOneConst then a
      else if a.same b then ofInt 1
      else simplifyQuotientOfPowers again a b := by
  cases b with
  | const d => simp [isConst] at h
  | _ =>
      cases a with
      | mul x y => cases x <;> rfl
      | _ => rfl

omit [ExactNumber κ] in
theorem simplified_div (hagain : Simplifies again n) (ha : Settled a) (hb : Settled b)
    (hna : Named a) (hnb : Named b) (hn : (Expr.div a b).weight ≤ n) :
    Simplified (.div a b) (simplifyDiv again a b) := by
  have hweight : (Expr.div a b).weight = a.weight + b.weight + 3 := rfl
  -- the same rule applies whatever simplifies the rebuilt trees
  have kept (h : ∀ again', simplifyDiv again' a b = .div a b) :
      Simplified (.div a b) (simplifyDiv again a b) := by
    rw [h]
    exact ⟨.div ha hb h, onlyNames_div.2 ⟨hna, hnb⟩, le_rfl⟩
  have quotient (h : ∀ again', simplifyDiv again' a b = simplifyQuotientOfPowers again' a b) :
      Simplified (.div a b) (simplifyDiv again a b) := by
    rcases simplified_quotientOfPowers hagain hna hnb hn with hkept | hsimplified
    · exact kept fun again' => by rw [h, hkept]
    · rwa [h]
  have numerator (h : simplifyDiv again a b = a) : Simplified (.div a b) (simplifyDiv again a b) := by
    rw [h]
    exact ⟨ha, hna, by omega⟩
  have scaled {c : κ} {a' : Expr κ} (hna' : Named a') (hle : a'.weight ≤ a.weight)
      (h : simplifyDiv again a b = again (.mul (.const c) a')) :
      Simplified (.div a b) (simplifyDiv again a b) := by
    have hmul : (Expr.mul (.const c) a').weight = a'.weight := Nat.zero_add _
    rw [h]
    exact (hagain.lighter _ (onlyNames_mul.2 ⟨onlyNames_const c, hna'⟩) (by omega)).mono (by omega)
  cases hconst : b.isConst with
  | false =>
      have heq := simplifyDiv_of_isConst (a := a) hconst
      by_cases hzero : a.isZeroConst = true
      · rw [heq, if_pos hzero]
        exact simplified_const _ _
      · by_cases hone : b.isOneConst = true
        · exact numerator (by rw [heq, if_neg hzero, if_pos hone])
        · by_cases hsame : a.same b = true
          · rw [heq, if_neg hzero, if_neg hone, if_pos hsame]
            exact simplified_const _ _
          · exact quotient fun again' => by
              rw [heq, if_neg hzero, if_neg hone, if_neg hsame]
  | true =>
      obtain ⟨d, rfl⟩ := exists_const_of_isConst hconst
      by_cases hone : isOne d = true
      · by_cases hac : a.isConst = true
        · obtain ⟨c, rfl⟩ := exists_const_of_isConst hac
          by_cases hzero : isZero d = true
          · exact kept fun again' => by simp [simplifyDiv, hzero]
          · have heq : simplifyDiv again (.const c) (.const d) = .const (c / d) := by
              simp [simplifyDiv, hzero]
            rw [heq]
            exact simplified_const _ _
        · cases a with
          | const c => exact absurd rfl hac
          | mul x y =>
              cases x <;>
                exact numerator (by simp [simplifyDiv, isZeroConst, isOneConst, hone])
          | _ => exact numerator (by simp [simplifyDiv, isZeroConst, isOneConst, hone])
      · by_cases hzero : isZero d = true
        · cases a with
          | const c => exact kept fun again' => by simp [simplifyDiv, hzero]
          | mul x y =>
              cases x <;> exact quotient fun again' => by
                simp [simplifyDiv, isZeroConst, isOneConst, same, hone, hzero]
          | _ =>
              exact quotient fun again' => by
                simp [simplifyDiv, isZeroConst, isOneConst, same, hone, hzero]
        · cases a with
          | const c =>
              have heq : simplifyDiv again (.const c) (.const d) = .const (c / d) := by
                simp [simplifyDiv, hzero]
              rw [heq]
              exact simplified_const _ _
          | var x =>
              exact scaled (c := one / d) hna le_rfl
                (by simp [simplifyDiv, isZeroConst, isOneConst, same, hone, hzero])
          | pow x y =>
              exact scaled (c := one / d) hna le_rfl
                (by simp [simplifyDiv, isZeroConst, isOneConst, same, hone, hzero])
          | mul x y =>
              cases x with
              | const c =>
                  exact scaled (c := c / d) (onlyNames_mul.1 hna).2 (by simp [weight])
                    (by simp [simplifyDiv, isZeroConst, isOneConst, same, hone, hzero])
              | _ =>
                  exact kept fun again' => by
                    simp [simplifyDiv, isZeroConst, isOneConst, same, hone, hzero]
          | _ =>
              exact quotient fun again' => by
                simp [simplifyDiv, isZeroConst, isOneConst, same, hone]

omit [ExactNumber κ] in
theorem simplified_pow (hagain : Simplifies again n) (ha : Settled a) (hb : Settled b)
    (hna : Named a) (hnb : Named b) (hn : (Expr.pow a b).weight ≤ n) :
    Simplified (.pow a b) (simplifyPow again a b) := by
  have hweight : (Expr.pow a b).weight = a.weight + b.weight + 1 := rfl
  unfold simplifyPow
  split
  · exact simplified_const _ _
  · split
    · exact simplified_const _ _
    · rename_i hzero
      split
      · exact ⟨ha, hna, by omega⟩
      · rename_i hone
        split
        · exact simplified_const _ _
        · rename_i hbase
          have kept : Simplified (.pow a b) (.pow a b) :=
            ⟨.pow ha hb (Bool.eq_false_iff.2 hbase) (Bool.eq_false_iff.2 hzero)
              (Bool.eq_false_iff.2 hone), onlyNames_pow.2 ⟨hna, hnb⟩, le_rfl⟩
          split
          · rename_i base m c _
            split
            · -- a power of a power
              obtain ⟨hnbase, hnm⟩ := onlyNames_pow.1 hna
              have hmul : (Expr.mul m (.const c)).weight = m.weight := Nat.add_zero _
              have hpow : (Expr.pow base m).weight = base.weight + m.weight + 1 := rfl
              obtain ⟨-, hnamed, hle⟩ :=
                hagain.lighter _ (onlyNames_mul.2 ⟨hnm, onlyNames_const c⟩) (by omega)
              have hrebuilt : (Expr.pow base (again (.mul m (.const c)))).weight =
                  base.weight + (again (.mul m (.const c))).weight + 1 := rfl
              exact (hagain.lighter _ (onlyNames_pow.2 ⟨hnbase, hnamed⟩) (by omega)).mono
                (by omega)
            · exact kept
          · exact kept

omit [ExactNumber κ] in
theorem simplified_apply (g : Elementary) (ha : Settled a) (hna : Named a) :
    Simplified (.apply g a) (simplifyApply g a) := by
  by_cases h : simplifyApply g a = .apply g a
  · rw [h]
    exact ⟨.apply ha h, onlyNames_apply.2 hna, le_rfl⟩
  · unfold simplifyApply at h ⊢
    split at h
    · split at h
      · exact simplified_const _ _
      · exact absurd rfl h
    · exact absurd rfl h

/-! ### Whole expressions -/

/-- One pass leaves a settled expression behind, if rebuilt trees are simplified. -/
theorem simplified_simplifyWith (hagain : Simplifies again n) (hnamed : Named e)
    (hn : e.weight ≤ n) : Simplified e (e.simplifyWith again) := by
  induction e with
  | var x => exact ⟨.var x, hnamed, le_rfl⟩
  | const c => exact simplified_const _ _
  | add a b iha ihb =>
      have hweight : (Expr.add a b).weight = a.weight + b.weight + 1 := rfl
      obtain ⟨hna, hnb⟩ := onlyNames_add.1 hnamed
      obtain ⟨sa, na, wa⟩ := iha hna (by omega)
      obtain ⟨sb, nb, wb⟩ := ihb hnb (by omega)
      exact (simplified_add sa sb na nb).mono (by simp only [weight]; omega)
  | sub a b iha ihb =>
      have hweight : (Expr.sub a b).weight = a.weight + b.weight + 1 := rfl
      obtain ⟨hna, hnb⟩ := onlyNames_sub.1 hnamed
      obtain ⟨sa, na, wa⟩ := iha hna (by omega)
      obtain ⟨sb, nb, wb⟩ := ihb hnb (by omega)
      have hle : (Expr.sub (a.simplifyWith again) (b.simplifyWith again)).weight ≤
          (Expr.sub a b).weight := by simp only [weight]; omega
      exact (simplified_sub hagain sa sb na nb (hle.trans hn)).mono hle
  | mul a b iha ihb =>
      have hweight : (Expr.mul a b).weight = a.weight + b.weight := rfl
      obtain ⟨hna, hnb⟩ := onlyNames_mul.1 hnamed
      obtain ⟨sa, na, wa⟩ := iha hna (by omega)
      obtain ⟨sb, nb, wb⟩ := ihb hnb (by omega)
      have hle : (Expr.mul (a.simplifyWith again) (b.simplifyWith again)).weight ≤
          (Expr.mul a b).weight := by simp only [weight]; omega
      exact (simplified_mul hagain sa sb na nb (hle.trans hn)).mono hle
  | div a b iha ihb =>
      have hweight : (Expr.div a b).weight = a.weight + b.weight + 3 := rfl
      obtain ⟨hna, hnb⟩ := onlyNames_div.1 hnamed
      obtain ⟨sa, na, wa⟩ := iha hna (by omega)
      obtain ⟨sb, nb, wb⟩ := ihb hnb (by omega)
      have hle : (Expr.div (a.simplifyWith again) (b.simplifyWith again)).weight ≤
          (Expr.div a b).weight := by simp only [weight]; omega
      exact (simplified_div hagain sa sb na nb (hle.trans hn)).mono hle
  | pow a b iha ihb =>
      have hweight : (Expr.pow a b).weight = a.weight + b.weight + 1 := rfl
      obtain ⟨hna, hnb⟩ := onlyNames_pow.1 hnamed
      obtain ⟨sa, na, wa⟩ := iha hna (by omega)
      obtain ⟨sb, nb, wb⟩ := ihb hnb (by omega)
      have hle : (Expr.pow (a.simplifyWith again) (b.simplifyWith again)).weight ≤
          (Expr.pow a b).weight := by simp only [weight]; omega
      exact (simplified_pow hagain sa sb na nb (hle.trans hn)).mono hle
  | apply g a ih =>
      have hweight : (Expr.apply g a).weight = a.weight + 2 := rfl
      obtain ⟨sa, na, wa⟩ := ih (onlyNames_apply.1 hnamed) (by omega)
      exact (simplified_apply g sa na).mono (by simp only [weight]; omega)

/-- Rebuilt trees are simplified as deep as their weight allows. -/
theorem simplified_simplifyWithin (n : ℕ) : ∀ e : Expr κ, Named e → e.weight ≤ n →
    Simplified e (simplifyWithin n e) := by
  induction n with
  | zero =>
      intro e hnamed hweight
      obtain ⟨c, hc⟩ := simplifyWith_of_weight_eq_zero (Nat.le_zero.1 hweight)
      rw [simplifyWithin, hc]
      exact simplified_const _ _
  | succ n ih =>
      intro e hnamed hweight
      have hagain : Simplifies (κ := κ) (simplifyWithin n) (n + 1) :=
        ⟨foldsSums_simplifyWithin n, fun a ha hlt => ih a ha (Nat.lt_succ_iff.1 hlt)⟩
      exact simplified_simplifyWith hagain hnamed hweight

/-- **Simplified expressions are settled, and no heavier.** -/
theorem simplified_simplify (hnamed : Named e) : Simplified e e.simplify :=
  simplified_simplifyWithin e.weight e hnamed le_rfl

end Exact

end Reckoner.Expr
