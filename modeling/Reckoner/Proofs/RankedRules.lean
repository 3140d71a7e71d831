/-
**No rule makes an expression larger.**

The result of a rule has no larger rank than the operation, and its exponents are nested no deeper.
Nothing is assumed of the operations on numbers, and nothing of names: an atom may come to stand in
another term of the sum, and a factor may get any number as its exponent.

Products are about bags of factors.  Two powers of one base are merged into one power, and the sum
of their exponents is simplified for it; this sum is lower than the product, since it is nested less
deep, or else it is a sum of numbers.  Sums are about the largest factor of their terms, and
collecting makes terms of atoms that some term had before.

A rule may also rebuild a tree and simplify that again.  Such a tree is *lower* than the operation:
its exponents are nested less deep, or no deeper and the bag of its factors is smaller.  The rank of
the simplified tree matters for the rule, so the rules are compared for any function that makes no
lower expression larger.

Main definitions:

* `Reckoner.Expr.bags`, `Reckoner.Expr.powersBag` — the bag of some factors together;
* `Reckoner.Expr.height` — depth and bag of an expression;
* `Reckoner.Expr.OfExponents` — sums, differences and products of two exponents.

Main results:

* `Reckoner.Expr.noLarger_collected?` — like terms are collected in nothing larger;
* `Reckoner.Expr.simplifyProduct_within` — a product with merged factors is no larger;
* `Reckoner.Expr.rebuilt_lower` — **every tree that a rule rebuilds is lower**;
* `Reckoner.Expr.Rule.within` — **no rule makes an expression larger**.
-/

import Reckoner.Proofs.Ranks

set_option autoImplicit false

namespace Reckoner

open Bag (single)

namespace Expr

open Arithmetic (one)

variable {κ : Type} {a b e f u : Expr κ} {es : List (Expr κ)} {N : ℕ}

/-! ### Factors -/

/-- The bag of a list of factors. -/
noncomputable def bags (es : List (Expr κ)) : Bag := (es.map fun f => f.rank.bag).sum

@[simp] theorem bags_nil : bags ([] : List (Expr κ)) = 0 := rfl

@[simp] theorem bags_cons (e : Expr κ) (es : List (Expr κ)) :
    bags (e :: es) = e.rank.bag + bags es := by
  simp [bags]

@[simp] theorem bags_append (es fs : List (Expr κ)) : bags (es ++ fs) = bags es + bags fs := by
  simp [bags]

theorem bags_factors (e : Expr κ) : bags e.factors = e.rank.bag := by
  induction e with
  | mul a b iha ihb => rw [factors, bags_append, iha, ihb]; rfl
  | _ => simp [factors]

theorem bag_le_bags (h : e ∈ es) : e.rank.bag ≤ bags es := by
  induction es with
  | nil => simp at h
  | cons f es ih =>
      rw [bags_cons]
      rcases List.mem_cons.1 h with rfl | h
      · exact Bag.le_add_right _ _
      · exact (ih h).trans (Bag.le_add_left _ _)

theorem depth_factors (h : f ∈ e.factors) : f.depth ≤ e.depth := by
  induction e with
  | mul a b iha ihb =>
      rw [depth]
      rcases List.mem_append.1 h with h | h
      · exact (iha h).trans (by omega)
      · exact (ihb h).trans (by omega)
  | _ => rw [List.mem_singleton.1 h]

section Product

variable [Number κ]

theorem rank_product (es : List (Expr κ)) : (Collection.product es).rank.bag = bags es := by
  cases es with
  | nil => rfl
  | cons e es =>
      have fold (es : List (Expr κ)) (e : Expr κ) :
          (es.foldl .mul e).rank.bag = e.rank.bag + bags es := by
        induction es generalizing e with
        | nil => simp
        | cons f es ih =>
            have hmul : (Expr.mul e f).rank.bag = e.rank.bag + f.rank.bag := rfl
            rw [List.foldl_cons, ih, hmul, bags_cons, add_assoc]
      rw [bags_cons]
      exact fold es e

theorem depth_product_le (hN : 1 ≤ N) (h : ∀ f ∈ es, f.depth ≤ N) :
    (Collection.product es).depth ≤ N := by
  cases es with
  | nil => exact Nat.zero_le _
  | cons e es =>
      have fold (es : List (Expr κ)) (e : Expr κ) (he : e.depth ≤ N) (h : ∀ f ∈ es, f.depth ≤ N) :
          (es.foldl .mul e).depth ≤ N := by
        induction es generalizing e with
        | nil => exact he
        | cons f es ih =>
            obtain ⟨hf, hes⟩ := List.forall_mem_cons.1 h
            exact ih _ (by rw [depth]; omega) hes
      obtain ⟨he, hes⟩ := List.forall_mem_cons.1 h
      exact fold es e he hes

end Product

/-- A single factor that is no number, as a base. -/
theorem base_eq_top (hc : e.isConst = false) (hp : e.isProduct = false) :
    e.rank.base = e.rank.bag.top := by
  cases e with
  | const c => simp [isConst] at hc
  | mul a b => simp [isProduct] at hp
  | pow a b => exact a.rank.base_raised
  | _ => rfl

/-- The terms of anything but a sum have all its factors. -/
theorem top_le_term (h : e.isSum = false) : e.rank.bag.top ≤ e.rank.term := by
  cases e with
  | add a b | sub a b => simp [isSum] at h
  | pow a b => exact le_rfl
  | mul a b => exact le_rfl
  | const c => exact Bag.top_zero.le
  | _ => exact Bag.top_single.le

section Terms

variable [Number κ]

/-- The factor of a power is as large as the power of its base. -/
theorem power_baseAndExponent (hc : e.isConst = false) (hp : e.isProduct = false) :
    e.baseAndExponent.1.rank.power = e.rank.bag := by
  cases e with
  | const c => simp [isConst] at hc
  | mul a b => simp [isProduct] at hp
  | _ => rfl

theorem depth_baseAndExponent (hc : e.isConst = false) :
    (Expr.pow e.baseAndExponent.1 e.baseAndExponent.2).depth ≤ e.depth := by
  cases e with
  | pow a b => exact le_rfl
  | _ =>
      have h1 := one_le_depth hc
      exact max_le le_rfl h1

/-- The terms of a multiple of an expression are no larger than the expression. -/
theorem terms_within (c : κ) (e : Expr κ) :
    ∀ t ∈ terms c e, t.rank.bag.top ≤ e.rank.term ∧ t.depth ≤ e.depth := by
  have single {e : Expr κ} (hsum : e.isSum = false) (hconst : e.isConst = false) (c : κ) :
      ∀ t ∈ [scaled c e], t.rank.bag.top ≤ e.rank.term ∧ t.depth ≤ e.depth := by
    rw [List.forall_mem_singleton, scaled]
    have h1 := one_le_depth hconst
    split
    · exact ⟨top_le_term hsum, le_rfl⟩
    · have hbag : (Expr.mul (.const c) e).rank.bag = e.rank.bag := zero_add _
      refine ⟨hbag ▸ top_le_term hsum, ?_⟩
      simp only [depth]
      omega
  fun_induction terms c e with
  | case1 c a b iha ihb | case2 c a b iha ihb =>
      refine List.forall_mem_append.2 ⟨fun t ht => ?_, fun t ht => ?_⟩
      · obtain ⟨htop, hdepth⟩ := iha t ht
        exact ⟨htop.trans (le_max_left _ _), hdepth.trans (by simp only [depth]; omega)⟩
      · obtain ⟨htop, hdepth⟩ := ihb t ht
        exact ⟨(htop.trans b.rank.term_le).trans (le_max_right _ _),
          hdepth.trans (by simp only [depth]; omega)⟩
  | case3 c d => simp [rank, Rank.number, depth]
  | case4 c d b h ih =>
      intro t ht
      obtain ⟨htop, hdepth⟩ := ih t ht
      refine ⟨(htop.trans b.rank.term_le).trans ?_, hdepth.trans (by simp only [depth]; omega)⟩
      exact Bag.top_mono (Bag.le_add_left _ _)
  | case6 c a d _ h ih =>
      intro t ht
      obtain ⟨htop, hdepth⟩ := ih t ht
      refine ⟨(htop.trans a.rank.term_le).trans ?_, hdepth.trans (by simp only [depth]; omega)⟩
      exact Bag.top_mono (Bag.le_add_right _ _)
  | case9 c e hadd hsub hconst hmul =>
      refine single ?_ ?_ c
      · cases e <;> simp_all [isSum]
      · cases e <;> simp_all [isConst]
  | _ => exact single rfl rfl _

end Terms

end Expr

/-! ### Like terms -/

namespace Collection

open Reckoner.Expr (ofInt)

variable {κ : Type} [Number κ] {s : Collection κ} {m : Monomial} {es : List (Expr κ)}
variable {D : Ordinal.{0}} {N : ℕ}

/-- An atom that is no larger than a bound, as a base, and whose exponents are nested no deeper
than another bound. -/
def AtomWithin (D : Ordinal.{0}) (N : ℕ) (a : Expr κ) : Prop := a.rank.base ≤ D ∧ a.depth ≤ N

/-- A product whose factors are no larger than a bound. -/
def TermWithin (D : Ordinal.{0}) (N : ℕ) (t : Expr κ) : Prop := t.rank.bag.top ≤ D ∧ t.depth ≤ N

theorem atomWithin_atomPower {e : Expr κ} (h : TermWithin D N e) (hc : e.isConst = false)
    (hp : e.isProduct = false) : AtomWithin D N e.atomPower.1 := by
  have whole : AtomWithin D N e := ⟨(Expr.base_eq_top hc hp).trans_le h.1, h.2⟩
  unfold Expr.atomPower
  split
  · rename_i base c
    have hdepth : base.depth ≤ (Expr.pow base (.const c)).depth := le_max_left _ _
    split
    · split
      · exact ⟨h.1, hdepth.trans h.2⟩
      · exact whole
    · exact whole
  · exact whole

theorem over_ofTerms (h : ∀ t ∈ es, TermWithin D N t) : Over (AtomWithin D N) (ofTerms es) := by
  refine ofTerms_over fun t ht f hf hc => ?_
  obtain ⟨htop, hdepth⟩ := h t ht
  have hbag : f.rank.bag ≤ t.rank.bag := (Expr.bag_le_bags hf).trans_eq t.bags_factors
  exact atomWithin_atomPower ⟨(Bag.top_mono hbag).trans htop, (Expr.depth_factors hf).trans hdepth⟩
    hc (Expr.isProduct_of_mem_factors hf)

theorem termWithin_powerOf (hs : s.Over (AtomWithin D N)) (hN : 1 ≤ N) (hm : s.Knows m)
    {p : String × ℤ} (hp : p ∈ m) : TermWithin D N (s.powerOf p.1 p.2) := by
  obtain ⟨hbase, hdepth⟩ := (hs.atom hm hp).2
  unfold powerOf
  split
  · exact ⟨(s.atom p.1).rank.top_le_base.trans hbase, hdepth⟩
  · exact ⟨hbase, max_le hdepth hN⟩

theorem termWithin_term (hs : s.Over (AtomWithin D N)) (hN : 1 ≤ N) (hm : s.Knows m) (c : κ) :
    TermWithin D N (s.term m c) := by
  have hconst : TermWithin D N (.const c) := ⟨Bag.top_zero.trans_le bot_le, Nat.zero_le _⟩
  have product {fs : List (Expr κ)} (h : ∀ f ∈ fs, TermWithin D N f) :
      TermWithin D N (product fs) := by
    refine ⟨?_, Expr.depth_product_le hN fun f hf => (h f hf).2⟩
    rw [Expr.rank_product]
    induction fs with
    | nil => exact Bag.top_zero.trans_le bot_le
    | cons f fs ih =>
        obtain ⟨hf, hfs⟩ := List.forall_mem_cons.1 h
        rw [Expr.bags_cons, Bag.top_add]
        exact max_le hf.1 (ih hfs)
  have powers : ∀ f ∈ m.map fun p => s.powerOf p.1 p.2, TermWithin D N f :=
    List.forall_mem_map.2 fun p hp => termWithin_powerOf hs hN hm hp
  unfold term
  split
  · exact hconst
  · refine product ?_
    split
    · exact powers
    · exact List.forall_mem_cons.2 ⟨hconst, powers⟩

/-- **A collected sum has no larger factors in its terms**, and no deeper exponents. -/
theorem toExpr_within (hN : 1 ≤ N) (h : ∀ t ∈ es, TermWithin D N t) :
    (ofTerms es).toExpr.rank.term ≤ D ∧ (ofTerms es).toExpr.depth ≤ N := by
  have hs := over_ofTerms h
  have known : ∀ t ∈ (ofTerms es).ordered, (ofTerms es).Knows t.1 :=
    fun t ht => hs.sums t (mem_sums_of_mem_ordered ht)
  have append {e : Expr κ} (t : Monomial × κ) (ht : (ofTerms es).Knows t.1)
      (he : e.rank.term ≤ D ∧ e.depth ≤ N) :
      ((ofTerms es).appendTerm e t).rank.term ≤ D ∧ ((ofTerms es).appendTerm e t).depth ≤ N := by
    unfold appendTerm
    split
    · obtain ⟨htop, hdepth⟩ := termWithin_term hs hN ht (-t.2)
      exact ⟨max_le he.1 htop, max_le hN (max_le he.2 hdepth)⟩
    · obtain ⟨htop, hdepth⟩ := termWithin_term hs hN ht t.2
      exact ⟨max_le he.1 htop, max_le hN (max_le he.2 hdepth)⟩
  have sum (ts : List (Monomial × κ)) (e : Expr κ) (hts : ∀ t ∈ ts, (ofTerms es).Knows t.1)
      (he : e.rank.term ≤ D ∧ e.depth ≤ N) :
      (ts.foldl (ofTerms es).appendTerm e).rank.term ≤ D ∧
        (ts.foldl (ofTerms es).appendTerm e).depth ≤ N := by
    induction ts generalizing e with
    | nil => exact he
    | cons t ts ih =>
        obtain ⟨ht, hts⟩ := List.forall_mem_cons.1 hts
        exact ih _ hts (append t ht he)
  unfold toExpr
  split
  · exact ⟨bot_le, Nat.zero_le _⟩
  · rename_i t ts ho
    rw [ho] at known
    obtain ⟨ht, hts⟩ := List.forall_mem_cons.1 known
    obtain ⟨htop, hdepth⟩ := termWithin_term hs hN ht t.2
    exact sum ts _ hts ⟨(Expr.rank _).term_le.trans htop, hdepth⟩

end Collection

namespace Expr

open Arithmetic (one)

variable {κ : Type} [Number κ] {a b e f u : Expr κ} {es : List (Expr κ)}
variable {N : ℕ} {again : Expr κ → Expr κ}

/-- A product has several terms only if it is a multiple of a sum. -/
theorem terms_mul_cases (c : κ) (a b : Expr κ) :
    (∃ d, a = .const d ∧ b.isSum = true ∧ terms c (.mul a b) = terms (c * d) b) ∨
      (∃ d, b = .const d ∧ a.isSum = true ∧ terms c (.mul a b) = terms (c * d) a) ∨
      terms c (.mul a b) = [scaled c (.mul a b)] := by
  generalize he : Expr.mul a b = e
  fun_cases terms c e with
  | case4 d b' h =>
      obtain ⟨rfl, rfl⟩ := Expr.mul.inj he
      exact .inl ⟨d, rfl, h, rfl⟩
  | case6 a' d _ h =>
      obtain ⟨rfl, rfl⟩ := Expr.mul.inj he
      exact .inr (.inl ⟨d, rfl, h, rfl⟩)
  | case5 | case7 | case8 | case9 => exact .inr (.inr rfl)
  | _ => cases he

/-- **Like terms are collected in nothing larger.** -/
theorem noLarger_collected? (h : e.collected? = some u) :
    u.rank ≤ e.rank ∧ u.depth ≤ e.depth := by
  -- the terms are those of a sum `d`, which may be the expression itself or a factor of it
  have collected {d : Expr κ} {c : κ} (hterms : e.terms one = d.terms c) (hd : d.depth ≤ e.depth)
      (h1 : 1 ≤ e.depth) : u.rank.term ≤ d.rank.term ∧ u.depth ≤ e.depth := by
    unfold collected? at h
    rw [hterms] at h
    dsimp only at h
    split at h
    · simp at h
    · obtain rfl := Option.some.inj h
      refine Collection.toExpr_within h1 fun t ht => ?_
      obtain ⟨htop, hdepth⟩ := terms_within c d t ht
      exact ⟨htop, hdepth.trans hd⟩
  have bag {d : Expr κ} (hd : d.isSum = true) (hle : u.rank.term ≤ d.rank.term) :
      u.rank.bag ≤ d.rank.bag := by
    have hbag : u.rank.bag ≤ single (d.rank.term + 1) :=
      (u.rank.bag_le.trans u.rank.power_le).trans (Bag.single_le_single.2 (add_le_add_left hle 1))
    cases d <;> first | exact hbag | simp [isSum] at hd
  cases e with
  | add a b | sub a b =>
      obtain ⟨hterm, hdepth⟩ := collected rfl le_rfl (le_max_left _ _)
      exact ⟨Rank.le_sum hterm, hdepth⟩
  | mul a b =>
      have h1 : 1 ≤ (Expr.mul a b).depth := le_max_left _ _
      rcases terms_mul_cases one a b with ⟨c, rfl, hsum, hterms⟩ | ⟨c, rfl, hsum, hterms⟩ | hterms
      · obtain ⟨hterm, hdepth⟩ := collected hterms (by simp only [depth]; omega) h1
        exact ⟨Rank.le_product ((bag hsum hterm).trans (Bag.le_add_left _ _)), hdepth⟩
      · obtain ⟨hterm, hdepth⟩ := collected hterms (by simp only [depth]; omega) h1
        exact ⟨Rank.le_product ((bag hsum hterm).trans (Bag.le_add_right _ _)), hdepth⟩
      · simp [collected?, hterms] at h
  | _ => simp [collected?, terms] at h

/-! ### Heights -/

/-- The depth of an expression, and among expressions of one depth the bag of the factors. -/
noncomputable def height (e : Expr κ) : ℕ ×ₗ Bag := toLex (e.depth, e.rank.bag)

omit [Number κ] in
theorem height_lt_of_depth_lt (h : f.depth < e.depth) : f.height < e.height :=
  Prod.Lex.toLex_lt_toLex.2 (.inl h)

omit [Number κ] in
theorem height_lt_of_bag_lt (hdepth : f.depth ≤ e.depth) (hbag : f.rank.bag < e.rank.bag) :
    f.height < e.height := by
  rcases hdepth.lt_or_eq with hlt | heq
  · exact height_lt_of_depth_lt hlt
  · exact Prod.Lex.toLex_lt_toLex.2 (.inr ⟨heq, hbag⟩)

omit [Number κ] in
theorem height_le (hdepth : f.depth ≤ e.depth) (hbag : f.rank.bag ≤ e.rank.bag) :
    f.height ≤ e.height := by
  rcases hdepth.lt_or_eq with hlt | heq
  · exact (height_lt_of_depth_lt hlt).le
  · exact Prod.Lex.toLex_le_toLex.2 (.inr ⟨heq, hbag⟩)

omit [Number κ] in
theorem depth_le_of_height_lt (h : f.height < e.height) : f.depth ≤ e.depth := by
  rcases Prod.Lex.toLex_lt_toLex.1 h with hlt | ⟨heq, -⟩
  · exact hlt.le
  · exact heq.le

/-! ### Exponents -/

/-- An operation on two exponents `m` and `k`, by which a rule replaces them. -/
structure OfExponents (m k e : Expr κ) : Prop where
  /-- It is as deep as the deeper one. -/
  depth_eq : e.depth = max 1 (max m.depth k.depth)
  /-- Numbers become a number. -/
  isNumeric : m.isConst = true → k.isConst = true → e.isNumeric = true
  /-- Numbers make no large expression. -/
  bag_le : m.isConst = true → k.isConst = true → e.rank.bag ≤ single 1

section Exponents

variable {m k : Expr κ}

omit [Number κ]

theorem ofExponents_add (m k : Expr κ) : OfExponents m k (.add m k) where
  depth_eq := rfl
  isNumeric hm hk := by simp [isNumeric, hm, hk]
  bag_le hm hk := by
    obtain ⟨c, rfl⟩ := exists_const_of_isConst hm
    obtain ⟨d, rfl⟩ := exists_const_of_isConst hk
    simp [rank, Rank.sum, Rank.number]

theorem ofExponents_sub (m k : Expr κ) : OfExponents m k (.sub m k) where
  depth_eq := rfl
  isNumeric hm hk := by simp [isNumeric, hm, hk]
  bag_le hm hk := (ofExponents_add m k).bag_le hm hk

theorem ofExponents_mul (m k : Expr κ) : OfExponents m k (.mul m k) where
  depth_eq := rfl
  isNumeric hm hk := by simp [isNumeric, hm, hk]
  bag_le hm hk := by
    obtain ⟨c, rfl⟩ := exists_const_of_isConst hm
    obtain ⟨d, rfl⟩ := exists_const_of_isConst hk
    exact (add_zero (0 : Bag)).trans_le (Bag.zero_le _)

/-- A new exponent is nested no deeper than the old ones. -/
theorem OfExponents.depth_pow_le (h : OfExponents m k e) (hu : NoLarger e u) :
    (Expr.pow b u).depth ≤ max b.depth (max m.depth k.depth + 1) := by
  have hdepth : u.depth ≤ max m.depth k.depth := by
    cases hm : m.isConst with
    | false =>
        have := one_le_depth hm
        exact (hu.depth_le.trans_eq h.depth_eq).trans (by omega)
    | true =>
        cases hk : k.isConst with
        | false =>
            have := one_le_depth hk
            exact (hu.depth_le.trans_eq h.depth_eq).trans (by omega)
        | true =>
            rw [isConst_iff_depth.1 (hu.folds (h.isNumeric hm hk))]
            exact Nat.zero_le _
  simp only [depth]
  omega

/-- An operation on exponents is lower than the expression they stand in. -/
theorem OfExponents.height_lt (h : OfExponents m k e)
    (hdepth : max m.depth k.depth + 1 ≤ f.depth) (hbag : single 1 < f.rank.bag) :
    e.height < f.height := by
  have hle := h.depth_eq
  by_cases hconst : m.isConst = true ∧ k.isConst = true
  · have hm := isConst_iff_depth.1 hconst.1
    have hk := isConst_iff_depth.1 hconst.2
    exact height_lt_of_bag_lt (by omega) ((h.bag_le hconst.1 hconst.2).trans_lt hbag)
  · have hpos : 1 ≤ max m.depth k.depth := by
      rw [isConst_iff_depth, isConst_iff_depth] at hconst
      omega
    exact height_lt_of_depth_lt (by omega)

end Exponents

/-! ### Products -/

/-- The bag of a list of powers as factors. -/
noncomputable def powersBag (ps : List (Expr κ × Expr κ)) : Bag :=
  (ps.map fun p => p.1.rank.power).sum

omit [Number κ] in
@[simp] theorem powersBag_nil : powersBag ([] : List (Expr κ × Expr κ)) = 0 := rfl

omit [Number κ] in
@[simp] theorem powersBag_cons (p : Expr κ × Expr κ) (ps : List (Expr κ × Expr κ)) :
    powersBag (p :: ps) = p.1.rank.power + powersBag ps := by
  simp [powersBag]

/-- The exponents of a list of powers are nested less deep than a bound. -/
def PowersWithin (N : ℕ) (ps : List (Expr κ × Expr κ)) : Prop :=
  ∀ p ∈ ps, (Expr.pow p.1 p.2).depth ≤ N

/-- One more power in a list of powers: its exponent is added to that of an equal base. -/
theorem powersWithin_mergePower {base exponent : Expr κ} {ps : List (Expr κ × Expr κ)}
    (hps : PowersWithin N ps) (hp : (Expr.pow base exponent).depth ≤ N)
    (hagain : ∀ f ∈ mergeCalls base exponent ps, NoLarger f (again f)) :
    PowersWithin N (mergePower again base exponent ps) ∧
      powersBag (mergePower again base exponent ps) ≤ powersBag ps + base.rank.power := by
  induction ps with
  | nil => exact ⟨List.forall_mem_singleton.2 hp, by simp [mergePower]⟩
  | cons q ps ih =>
      obtain ⟨b, m⟩ := q
      obtain ⟨hq, hrest⟩ := List.forall_mem_cons.1 hps
      simp only [mergeCalls] at hagain
      simp only [mergePower]
      split
      · rename_i hsame
        rw [if_pos hsame, List.forall_mem_singleton] at hagain
        have hpow := (ofExponents_add m exponent).depth_pow_le (b := b) hagain
        refine ⟨List.forall_mem_cons.2 ⟨?_, hrest⟩, ?_⟩
        · simp only [depth] at hp hq hpow ⊢
          omega
        · rw [powersBag_cons, powersBag_cons]
          exact Bag.le_add_right _ _
      · rename_i hsame
        rw [if_neg hsame] at hagain
        obtain ⟨hwithin, hbag⟩ := ih hrest hagain
        refine ⟨List.forall_mem_cons.2 ⟨hq, hwithin⟩, ?_⟩
        rw [powersBag_cons, powersBag_cons, add_assoc]
        exact add_le_add_right hbag _

/-- The sum of two exponents is lower than any expression that has both powers as factors. -/
theorem mergeCalls_lower {base exponent : Expr κ} {ps : List (Expr κ × Expr κ)}
    (hps : PowersWithin e.depth ps) (hp : (Expr.pow base exponent).depth ≤ e.depth)
    (hbag : powersBag ps + base.rank.power ≤ e.rank.bag) :
    ∀ f ∈ mergeCalls base exponent ps, f.height < e.height := by
  induction ps with
  | nil => simp [mergeCalls]
  | cons q ps ih =>
      obtain ⟨b, m⟩ := q
      obtain ⟨hq, hrest⟩ := List.forall_mem_cons.1 hps
      rw [powersBag_cons] at hbag
      simp only [mergeCalls]
      split
      · rw [List.forall_mem_singleton]
        refine (ofExponents_add m exponent).height_lt ?_ ?_
        · simp only [depth] at hp hq
          omega
        · -- there is one factor for each of the two powers
          have hpos : 0 < base.rank.power := (Bag.single_pos 1).trans_le base.rank.single_one_le
          calc single 1 ≤ b.rank.power := b.rank.single_one_le
            _ ≤ b.rank.power + powersBag ps := Bag.le_add_right _ _
            _ < b.rank.power + powersBag ps + base.rank.power := lt_add_of_pos_right _ hpos
            _ ≤ e.rank.bag := hbag
      · refine ih hrest (le_trans ?_ hbag)
        rw [add_assoc]
        exact Bag.le_add_left _ _

/-- **The factors of a product are merged** into powers that are no larger together, and the sums of
exponents that this takes are lower than the product. -/
theorem mergeFactors_within {c : κ} {ps : List (Expr κ × Expr κ)}
    (hagain : ∀ f : Expr κ, f.height < e.height → NoLarger f (again f))
    (hps : PowersWithin e.depth ps) (hes : ∀ f ∈ es, f.isProduct = false ∧ f.depth ≤ e.depth)
    (hbag : powersBag ps + bags es ≤ e.rank.bag) :
    (∀ f ∈ factorCalls again ps es, f.height < e.height) ∧
      PowersWithin e.depth (mergeFactors again c ps es).2 ∧
      powersBag (mergeFactors again c ps es).2 ≤ powersBag ps + bags es := by
  induction es generalizing c ps with
  | nil => exact ⟨by simp [factorCalls], hps, (add_zero _).ge⟩
  | cons f es ih =>
      obtain ⟨⟨hproduct, hdepth⟩, hrest⟩ := List.forall_mem_cons.1 hes
      cases hc : f.isConst with
      | true =>
          obtain ⟨d, rfl⟩ := exists_const_of_isConst hc
          have hbags : bags (.const d :: es) = bags es := zero_add _
          rw [hbags] at hbag ⊢
          exact ih hps hrest hbag
      | false =>
          have hpower := power_baseAndExponent hc hproduct
          have hp := (depth_baseAndExponent hc).trans hdepth
          rw [bags_cons, ← add_assoc, ← hpower] at hbag ⊢
          have hcalls := mergeCalls_lower hps hp ((Bag.le_add_right _ _).trans hbag)
          obtain ⟨hwithin, hle⟩ :=
            powersWithin_mergePower hps hp fun g hg => hagain g (hcalls g hg)
          obtain ⟨hlower, hmerged, hmergedBag⟩ :=
            ih (c := c) hwithin hrest ((add_le_add_left hle _).trans hbag)
          rw [mergeFactors_cons hc, factorCalls, hc, if_neg Bool.false_ne_true]
          exact ⟨List.forall_mem_append.2 ⟨hcalls, hlower⟩, hmerged,
            hmergedBag.trans (add_le_add_left hle _)⟩

/-- A power as a factor is no larger than the power. -/
theorem factor?_within {p : Expr κ × Expr κ} (h : factor? p = some f) :
    f.depth ≤ (Expr.pow p.1 p.2).depth ∧ f.rank.bag ≤ p.1.rank.power := by
  unfold factor? at h
  split at h
  · simp at h
  · split at h
    · obtain rfl := Option.some.inj h
      exact ⟨le_max_left _ _, p.1.rank.bag_le⟩
    · obtain rfl := Option.some.inj h
      exact ⟨le_rfl, le_rfl⟩

theorem bags_filterMap_factor?_le (ps : List (Expr κ × Expr κ)) :
    bags (ps.filterMap factor?) ≤ powersBag ps := by
  induction ps with
  | nil => exact le_rfl
  | cons p ps ih =>
      rw [powersBag_cons]
      cases hp : factor? p with
      | none =>
          rw [List.filterMap_cons_none hp]
          exact ih.trans (Bag.le_add_left _ _)
      | some f =>
          rw [List.filterMap_cons_some hp, bags_cons]
          exact add_le_add (factor?_within hp).2 ih

section ProductOfTwo

variable (hagain : ∀ f : Expr κ, f.height < (Expr.mul a b).height → NoLarger f (again f))
include hagain

theorem mergeFactors_mul :
    (∀ f ∈ factorCalls again [] (Expr.mul a b).factors, f.height < (Expr.mul a b).height) ∧
      PowersWithin (Expr.mul a b).depth (mergeFactors again one [] (Expr.mul a b).factors).2 ∧
      powersBag (mergeFactors again one [] (Expr.mul a b).factors).2 ≤ (Expr.mul a b).rank.bag := by
  have hzero : powersBag ([] : List (Expr κ × Expr κ)) + bags (Expr.mul a b).factors =
      (Expr.mul a b).rank.bag := (zero_add _).trans (bags_factors _)
  rw [← hzero]
  exact mergeFactors_within hagain (by simp [PowersWithin])
    (fun f hf => ⟨isProduct_of_mem_factors hf, depth_factors hf⟩) hzero.le

/-- **A product with merged factors is no larger.** -/
theorem simplifyProduct_within :
    (simplifyProduct again (.mul a b)).rank ≤ (Expr.mul a b).rank ∧
      (simplifyProduct again (.mul a b)).depth ≤ (Expr.mul a b).depth := by
  obtain ⟨-, hwithin, hbag⟩ := mergeFactors_mul hagain
  have h1 : 1 ≤ (Expr.mul a b).depth := le_max_left _ _
  have hfactors := (bags_filterMap_factor?_le _).trans hbag
  have hdepth : ∀ f ∈ (mergeFactors again one [] (Expr.mul a b).factors).2.filterMap factor?,
      f.depth ≤ (Expr.mul a b).depth := by
    intro f hf
    obtain ⟨p, hp, hpf⟩ := List.mem_filterMap.1 hf
    exact (factor?_within hpf).1.trans (hwithin p hp)
  have product {es : List (Expr κ)} (hes : bags es ≤ (Expr.mul a b).rank.bag)
      (h : ∀ f ∈ es, f.depth ≤ (Expr.mul a b).depth) :
      (Collection.product es).rank ≤ (Expr.mul a b).rank ∧
        (Collection.product es).depth ≤ (Expr.mul a b).depth :=
    ⟨Rank.le_product ((rank_product es).trans_le hes), depth_product_le h1 h⟩
  unfold simplifyProduct
  dsimp only
  split
  · exact ⟨Rank.number_le _, Nat.zero_le _⟩
  · split
    · exact product hfactors hdepth
    · refine product ?_ (List.forall_mem_cons.2 ⟨Nat.zero_le _, hdepth⟩)
      rw [bags_cons]
      exact (zero_add _).trans_le hfactors

end ProductOfTwo

/-! ### Rules -/

/-- The base of a quotient of powers is smaller than the quotient. -/
theorem base_baseAndExponent (e : Expr κ) :
    e.baseAndExponent.1.rank.base ≤ e.rank.base ∧ e.baseAndExponent.1.depth ≤ e.depth ∧
      e.baseAndExponent.2.depth + 1 ≤ max 1 e.depth := by
  cases e with
  | pow a b =>
      refine ⟨Bag.top_mono (Bag.le_add_right _ _), le_max_left _ _, ?_⟩
      have hb : b.depth + 1 ≤ (Expr.pow a b).depth := le_max_right _ _
      exact hb.trans (le_max_right _ _)
  | _ => exact ⟨le_rfl, le_rfl, le_max_left _ _⟩

/-- **Every tree that a rule rebuilds is lower than the operation.** -/
theorem rebuilt_lower (hagain : ∀ f : Expr κ, f.height < e.height → NoLarger f (again f)) :
    ∀ f ∈ e.rebuilt again, f.height < e.height := by
  cases e with
  | sub a b =>
      rw [rebuilt, List.forall_mem_singleton]
      have hbag : b.negated.rank.bag = b.rank.bag := zero_add _
      refine height_lt_of_bag_lt ?_ ?_
      · simp only [negated, ofInt, depth]
        omega
      · rw [hbag]
        exact Bag.lt_single_of_top_lt (Order.lt_add_one_iff.2 (le_max_right _ _))
  | mul a b => exact (mergeFactors_mul hagain).1
  | div a b =>
      obtain ⟨hbase, hdepth, hexponent⟩ := a.base_baseAndExponent
      obtain ⟨-, -, hexponent'⟩ := b.base_baseAndExponent
      have hdiv : (Expr.div a b).depth = max 1 (max a.depth b.depth) := rfl
      have hnum := a.rank.num_lt_quotientSize b.rank
      have hone : single 1 < (Expr.div a b).rank.bag := by
        refine Bag.single_lt_single.2 (lt_of_le_of_lt ?_ hnum)
        exact le_add_self
      have hdifference := ofExponents_sub a.baseAndExponent.2 b.baseAndExponent.2
      have hlower := hdifference.height_lt (f := .div a b) (by omega) hone
      -- a multiple of the numerator has the factors of the numerator
      have scaled {f : Expr κ} (hbag : f.rank.bag = a.rank.bag) (hdepth : f.depth ≤ max 1 a.depth) :
          f.height < (Expr.div a b).height := by
        refine height_lt_of_bag_lt (by omega) (hbag ▸ Bag.lt_single_of_top_lt ?_)
        exact (a.rank.top_le_base.trans (le_add_right le_rfl)).trans_lt hnum
      have hscaled : ∀ f ∈ scaledNumerators a b, f.height < (Expr.div a b).height := by
        unfold scaledNumerators
        split
        · rw [List.forall_mem_cons, List.forall_mem_singleton]
          exact ⟨scaled rfl (by simp [depth]), scaled (zero_add _) (by simp [depth])⟩
        · rw [List.forall_mem_singleton]
          exact scaled (zero_add _) (by simp [depth])
        · simp
      have hpow := hdifference.depth_pow_le (b := a.baseAndExponent.1) (hagain _ hlower)
      simp only [rebuilt, List.forall_mem_append, List.forall_mem_cons]
      refine ⟨hscaled, hlower, height_lt_of_bag_lt (by omega) ?_, by simp⟩
      refine Bag.lt_single_of_top_lt (hbase.trans_lt ?_)
      exact (le_add_right le_rfl).trans_lt hnum
  | pow a b =>
      cases a with
      | pow base m =>
          have hone : single 1 < (Expr.pow (.pow base m) b).rank.bag :=
            base.rank.single_one_le.trans_lt (lt_add_of_pos_right _ (Bag.single_pos 0))
          have hproduct := ofExponents_mul m b
          have hlower := hproduct.height_lt (f := .pow (.pow base m) b)
            (by simp only [depth]; omega) hone
          have hpow := hproduct.depth_pow_le (b := base) (hagain _ hlower)
          simp only [rebuilt, List.forall_mem_cons]
          refine ⟨hlower, height_lt_of_bag_lt (hpow.trans (by simp only [depth]; omega)) ?_,
            by simp⟩
          exact lt_add_of_pos_right _ (Bag.single_pos 0)
      | _ => simp [rebuilt]
  | _ => simp [rebuilt]

omit [Number κ] in
/-- A multiple of a numerator is no larger than the quotient. -/
theorem scaled_le_div (c : κ) (a b : Expr κ) :
    (Expr.mul (.const c) a).rank ≤ (Expr.div a b).rank := by
  refine Rank.le_quotient ?_
  have htop : (Expr.mul (.const c) a).rank.base = a.rank.bag.top + 1 := by
    simp [rank, Rank.product, Rank.base, Rank.number]
  rw [htop]
  exact (add_le_add_left a.rank.top_le_base 1).trans_lt (a.rank.num_lt_quotientSize b.rank)

theorem mem_scaledNumerators (a : Expr κ) (d : κ) :
    .mul (.const (one / d)) a ∈ scaledNumerators a (.const d) := by
  unfold scaledNumerators
  split <;> simp_all

/-- **No rule makes an expression larger.** -/
theorem Rule.within (hagain : ∀ f : Expr κ, f.height < e.height → NoLarger f (again f))
    (r : Rule again e u) : u.rank ≤ e.rank ∧ u.depth ≤ e.depth := by
  -- a rebuilt tree has no larger rank than the operation, and neither has its simplification
  have call {f : Expr κ} (hf : f ∈ e.rebuilt again) (hrank : f.rank ≤ e.rank) :
      (again f).rank ≤ e.rank ∧ (again f).depth ≤ e.depth := by
    have hlower := rebuilt_lower hagain f hf
    have hf := hagain f hlower
    exact ⟨hf.rank_le.trans hrank, hf.depth_le.trans (depth_le_of_height_lt hlower)⟩
  have operand {a : Expr κ} (ha : a ∈ e.operands) (hrank : a.rank ≤ e.rank) :
      a.rank ≤ e.rank ∧ a.depth ≤ e.depth := ⟨hrank, depth_operand ha⟩
  cases r with
  | keep => exact ⟨le_rfl, le_rfl⟩
  | collect h => exact noLarger_collected? h
  | foldAdd | foldSub | foldMul | foldDiv | foldPow => exact ⟨Rank.number_le _, Nat.zero_le _⟩
  | subSelf | zeroMul | mulZero | zeroDiv | divSelf | powZero | onePow | foldApply =>
      exact ⟨Rank.number_le _, Nat.zero_le _⟩
  | zeroAdd =>
      exact operand (by simp [operands]) (Rank.le_sum ((Rank.term_le _).trans (le_max_right _ _)))
  | addZero | subZero => exact operand (by simp [operands]) (Rank.le_sum (le_max_left _ _))
  | @zeroSub a b =>
      have hterm : b.negated.rank.term = b.rank.bag.top := congrArg Bag.top (zero_add _)
      exact call (List.mem_singleton.2 rfl) (Rank.le_sum (hterm.trans_le (le_max_right _ _)))
  | oneMul => exact operand (by simp [operands]) (Rank.le_product (Bag.le_add_left _ _))
  | mulOne => exact operand (by simp [operands]) (Rank.le_product (Bag.le_add_right _ _))
  | product => exact simplifyProduct_within hagain
  | divOne => exact operand (by simp [operands]) (Rank.num_le_quotient _ _)
  | scale => exact call (by simp [rebuilt, scaledNumerators]) (Rank.num_le_quotient _ _)
  | @divConst a d _ =>
      exact call (List.mem_append_left _ (mem_scaledNumerators a d)) (scaled_le_div _ a _)
  | @cancel a b _ _ =>
      refine call (by simp [rebuilt]) (Rank.le_quotient ?_)
      obtain ⟨hbase, -, -⟩ := a.base_baseAndExponent
      have hraised : (a.baseAndExponent.1.rank.raised).base ≤ a.rank.base :=
        (Rank.base_raised _).trans_le hbase
      exact hraised.trans_lt ((le_add_right le_rfl).trans_lt (Rank.num_lt_quotientSize _ _))
  | powOne => exact operand (by simp [operands]) (Rank.le_raised _)
  | powPow => exact call (by simp [rebuilt]) (Rank.le_raised _)

end Expr

end Reckoner
