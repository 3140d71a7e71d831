/-
**Expansion without a bound.**

The terms of an expression are computed from those of its operands and, in a power of a sum, from
those of the sums that are collected after every factor.  These sums are simplified before they are
split again, and simplification may make anything of them that has no larger rank.

The first factors of a power give terms whose factors are smaller than the base of the power,
however many of them there are.  The sum of such terms is a smaller term than the power is, and its
exponents are nested no deeper.  This is a measure for the calls of expansion: the depth of an
expression, then its size as a term of a sum, and for the operands the size outside of exponents.
What makes it go through is that several terms are always smaller than the expression they come
from: their factors are smaller than its base, and the bags of their factors are smaller than its
bag.

Main definitions:

* `Reckoner.Expr.expandedRoot`, `Reckoner.Expr.expandedStep` — one operation of expansion;
* `Reckoner.Expr.powerSums` — the sums that are collected in a power of a sum;
* `Reckoner.Expr.expansionCalls` — all calls of the expansion of an expression;
* `Reckoner.Expr.RankSplits` — terms that are no larger than the expression they come from;
* `Reckoner.Expr.expansionMeasure` — the measure of expansion;
* `Reckoner.Expr.unboundedTerms` — the terms of an expression, without a bound.

Main results:

* `Reckoner.Expr.powerTermsWith_spec` — the first factors of a power of a sum;
* `Reckoner.Expr.rankSplits_root` — the terms of an operation;
* `Reckoner.Expr.recurses_expand`, `Reckoner.Expr.eq_unboundedTerms` — **expansion ends**, and is
  what its rules describe.
-/

import Reckoner.Proofs.Unbounded

set_option autoImplicit false

namespace Reckoner

open Bag (single)

namespace Expr

open Arithmetic (one)

variable {κ : Type} [Number κ] {a b e f : Expr κ} {es fs : List (Expr κ)} {k : ℕ}
variable {tidy tidy' : Expr κ → Expr κ} {again again' split split' : Expr κ → List (Expr κ)}

/-! ### One operation -/

/-- The terms of a power of a sum of terms, with `tidy` for the simplification of the sums that are
collected after every factor and `again` for the terms of these sums. -/
def powerTermsWith (tidy : Expr κ → Expr κ) (again : Expr κ → List (Expr κ))
    (es : List (Expr κ)) : ℕ → List (Expr κ)
  | 0 => [.const one]
  | n + 1 => again (tidy (sumOf (crossProduct (powerTermsWith tidy again es n) es)))

/-- The sums of terms that are collected while a power of a sum of terms is multiplied out. -/
def powerSums (tidy : Expr κ → Expr κ) (again : Expr κ → List (Expr κ)) (es : List (Expr κ)) :
    ℕ → List (Expr κ)
  | 0 => []
  | n + 1 => powerSums tidy again es n ++
      [sumOf (crossProduct (powerTermsWith tidy again es n) es)]

/-- The terms of an operation, with `tidy` for the simplification of sums, `split` for the terms of
its operands and `again` for those of the sums that arise from powers. -/
def expandedRoot (tidy : Expr κ → Expr κ) (again split : Expr κ → List (Expr κ)) :
    Expr κ → List (Expr κ)
  | .add a b => split a ++ split b
  | .sub a b => split a ++ (split b).map .negated
  | .mul a b => crossProduct (split a) (split b)
  | .div a b => (split a).map fun e => .div e (tidy (sumOf (split b)))
  | .pow a b =>
      match b.expandedExponent? with
      | some n =>
          if (split a).length < 2 then [.pow (tidy (sumOf (split a))) b]
          else powerTermsWith tidy again (split a) n
      | none => [.pow (tidy (sumOf (split a))) (tidy (sumOf (split b)))]
  | .apply f a => [.apply f (tidy (sumOf (split a)))]
  | .var x => [.var x]
  | .const c => [.const c]

/-- The sums that are collected in a power, before they are simplified. -/
def rebuiltSums (tidy : Expr κ → Expr κ) (again split : Expr κ → List (Expr κ)) :
    Expr κ → List (Expr κ)
  | .pow a b =>
      match b.expandedExponent? with
      | some n => if (split a).length < 2 then [] else powerSums tidy again (split a) n
      | none => []
  | _ => []

/-- The sums that are simplified for the terms of an operation: those of the terms of its operands,
and those that are collected in a power. -/
def collectedSums (tidy : Expr κ → Expr κ) (again split : Expr κ → List (Expr κ)) (e : Expr κ) :
    List (Expr κ) :=
  e.operands.map (fun a => sumOf (split a)) ++ e.rebuiltSums tidy again split

theorem powerTermsWith_congr (htidy : ∀ s ∈ powerSums tidy again es k, tidy s = tidy' s)
    (hagain : ∀ s ∈ powerSums tidy again es k, again (tidy s) = again' (tidy s)) :
    powerTermsWith tidy again es k = powerTermsWith tidy' again' es k := by
  induction k with
  | zero => rfl
  | succ k ih =>
      obtain ⟨htidy, hlast⟩ := List.forall_mem_append.1 htidy
      obtain ⟨hagain, hlast'⟩ := List.forall_mem_append.1 hagain
      rw [List.forall_mem_singleton] at hlast hlast'
      rw [powerTermsWith, powerTermsWith, ← ih htidy hagain, ← hlast]
      exact hlast'

/-- **An operation depends on no other calls** than those on its operands and on the simplified
sums that it collects. -/
theorem expandedRoot_congr (hsplit : ∀ a ∈ e.operands, split a = split' a)
    (htidy : ∀ s ∈ e.collectedSums tidy again split, tidy s = tidy' s)
    (hagain : ∀ s ∈ e.rebuiltSums tidy again split, again (tidy s) = again' (tidy s)) :
    e.expandedRoot tidy again split = e.expandedRoot tidy' again' split' := by
  obtain ⟨hoperands, hsums⟩ := List.forall_mem_append.1 htidy
  rw [List.forall_mem_map] at hoperands
  cases e with
  | var | const => rfl
  | apply f a =>
      simp only [operands, List.forall_mem_singleton] at hsplit hoperands
      rw [expandedRoot, expandedRoot, ← hsplit, hoperands]
  | pow a b =>
      simp only [operands, List.forall_mem_cons] at hsplit hoperands
      simp only [expandedRoot, rebuiltSums, ← hsplit.1, ← hsplit.2.1, ← hoperands.1,
        ← hoperands.2.1] at hagain hsums ⊢
      split
      · rename_i n hn
        rw [hn] at hagain hsums
        dsimp only at hagain hsums
        split
        · rfl
        · rename_i hlength
          rw [if_neg hlength] at hagain hsums
          exact powerTermsWith_congr hsums hagain
      · rfl
  | div a b =>
      simp only [operands, List.forall_mem_cons] at hsplit hoperands
      rw [expandedRoot, expandedRoot, ← hsplit.1, ← hsplit.2.1, hoperands.2.1]
  | _ =>
      simp only [operands, List.forall_mem_cons] at hsplit
      simp only [expandedRoot, hsplit]

omit [Number κ] in
theorem length_crossProduct (es fs : List (Expr κ)) :
    (crossProduct es fs).length = es.length * fs.length := by
  simp [crossProduct]

/-! ### Terms of lower rank -/

/-- The terms of an expression: they are no larger than the expression, and have no larger factors
than its own terms.  If there are several of them they are smaller. -/
structure RankSplits (e : Expr κ) (es : List (Expr κ)) : Prop where
  /-- The exponents are nested no deeper. -/
  depth_le : ∀ t ∈ es, t.depth ≤ e.depth
  /-- The rank is no larger. -/
  rank_le : ∀ t ∈ es, t.rank ≤ e.rank
  /-- The factors are no larger. -/
  top_le : ∀ t ∈ es, t.rank.bag.top ≤ e.rank.term
  /-- Several terms have smaller factors, and smaller bags of factors. -/
  several : 2 ≤ es.length → ∀ t ∈ es, t.rank.bag.top < e.rank.base ∧ t.rank.bag < e.rank.bag

omit [Number κ] in
/-- An expression that is its own term. -/
theorem rankSplits_singleton (hdepth : a.depth ≤ e.depth) (hrank : a.rank ≤ e.rank)
    (htop : a.rank.bag.top ≤ e.rank.term) : RankSplits e [a] where
  depth_le := List.forall_mem_singleton.2 hdepth
  rank_le := List.forall_mem_singleton.2 hrank
  top_le := List.forall_mem_singleton.2 htop
  several h := by simp at h

/-- A sum of terms with factors below a bound. -/
theorem term_sumOf_lt {x : Ordinal.{0}} (hx : 0 < x) (h : ∀ t ∈ es, t.rank.bag.top < x) :
    (sumOf es).rank.term < x :=
  sumOf_induction (Q := fun e => e.rank.term < x) hx (fun t ht => t.rank.term_le.trans_lt ht)
    (fun _ _ ha ht => max_lt ha ht) h

theorem depth_sumOf_le {N : ℕ} (hN : 1 ≤ N) (h : ∀ t ∈ es, t.depth ≤ N) : (sumOf es).depth ≤ N :=
  sumOf_induction (Q := fun e => e.depth ≤ N) (Nat.zero_le _) (fun _ ht => ht)
    (fun _ _ ha ht => max_le hN (max_le ha ht)) h

/-- The collected terms of an expression are no larger as the base of a power. -/
theorem RankSplits.collect (h : RankSplits e es) (htidy : ∀ s, NoLarger s (tidy s)) :
    (tidy (sumOf es)).rank.power ≤ e.rank.power ∧ (tidy (sumOf es)).depth ≤ e.depth := by
  have hsum : (sumOf es).rank.power ≤ e.rank.power ∧ (sumOf es).depth ≤ e.depth := by
    match es, h with
    | [], _ => exact ⟨(Rank.number_le _).2.1, Nat.zero_le _⟩
    | [t], h => exact ⟨(h.rank_le t List.mem_cons_self).2.1, h.depth_le t List.mem_cons_self⟩
    | t :: t' :: ts, h =>
        have hseveral := h.several (by simp)
        have hterm := term_sumOf_lt e.rank.base_pos fun t ht => (hseveral t ht).1
        have hdepth : 1 ≤ e.depth := by
          refine one_le_depth (Bool.eq_false_iff.2 fun hconst => ?_)
          obtain ⟨c, rfl⟩ := exists_const_of_isConst hconst
          exact absurd (hseveral t List.mem_cons_self).2 (not_lt.2 (Bag.zero_le _))
        refine ⟨?_, depth_sumOf_le hdepth h.depth_le⟩
        have hsum : (sumOf (t :: t' :: ts)).rank.power ≤ single e.rank.base :=
          (Rank.power_le _).trans (Bag.single_le_single.2 (Order.add_one_le_iff.2 hterm))
        exact hsum.trans e.rank.single_base_le
  exact ⟨(htidy _).rank_le.2.1.trans hsum.1, (htidy _).depth_le.trans hsum.2⟩

namespace RankSplits

omit [Number κ] in
/-- The terms of a sum. -/
theorem of_isSum (hsum : e.isSum = true) (hdepth : ∀ t ∈ es, t.depth ≤ e.depth)
    (htop : ∀ t ∈ es, t.rank.bag.top ≤ e.rank.term) : RankSplits e es := by
  have hsize : ∃ p q : Rank, e.rank = p.sum q := by
    cases e with
    | add a b | sub a b => exact ⟨a.rank, b.rank, rfl⟩
    | _ => simp [isSum] at hsum
  obtain ⟨p, q, hrank⟩ := hsize
  have hlt : ∀ t ∈ es, t.rank.bag.top < max p.term q.bag.top + 1 := fun t ht =>
    Order.lt_add_one_iff.2 ((htop t ht).trans_eq (congrArg Rank.term hrank))
  refine ⟨hdepth, fun t ht => ?_, htop, fun _ t ht => ?_⟩
  · rw [hrank]
    exact Rank.le_sum (t.rank.term_le.trans (Order.lt_add_one_iff.1 (hlt t ht)))
  · rw [hrank]
    exact ⟨(hlt t ht).trans_eq Bag.top_single.symm, Bag.lt_single_of_top_lt (hlt t ht)⟩

omit [Number κ] in
theorem add (ha : RankSplits a es) (hb : RankSplits b fs) : RankSplits (.add a b) (es ++ fs) := by
  refine of_isSum rfl (List.forall_mem_append.2 ⟨fun t ht => ?_, fun t ht => ?_⟩)
    (List.forall_mem_append.2 ⟨fun t ht => ?_, fun t ht => ?_⟩)
  · exact (ha.depth_le t ht).trans (depth_operand (by simp [operands]))
  · exact (hb.depth_le t ht).trans (depth_operand (by simp [operands]))
  · exact (ha.top_le t ht).trans (le_max_left _ _)
  · exact ((hb.top_le t ht).trans b.rank.term_le).trans (le_max_right _ _)

theorem sub (ha : RankSplits a es) (hb : RankSplits b fs) :
    RankSplits (.sub a b) (es ++ fs.map .negated) := by
  refine of_isSum rfl
    (List.forall_mem_append.2 ⟨fun t ht => ?_, List.forall_mem_map.2 fun t ht => ?_⟩)
    (List.forall_mem_append.2 ⟨fun t ht => ?_, List.forall_mem_map.2 fun t ht => ?_⟩)
  · exact (ha.depth_le t ht).trans (depth_operand (by simp [operands]))
  · have := hb.depth_le t ht
    simp only [negated, ofInt, depth]
    omega
  · exact (ha.top_le t ht).trans (le_max_left _ _)
  · have hbag : t.negated.rank.bag = t.rank.bag := zero_add _
    rw [hbag]
    exact ((hb.top_le t ht).trans b.rank.term_le).trans (le_max_right _ _)

omit [Number κ] in
theorem mul (ha : RankSplits a es) (hb : RankSplits b fs) :
    RankSplits (.mul a b) (crossProduct es fs) := by
  have hbag : ∀ s ∈ es, ∀ t ∈ fs, s.rank.bag + t.rank.bag ≤ a.rank.bag + b.rank.bag :=
    fun s hs t ht => add_le_add (ha.rank_le s hs).1 (hb.rank_le t ht).1
  refine ⟨forall_mem_crossProduct fun s hs t ht => ?_,
    forall_mem_crossProduct fun s hs t ht => Rank.le_product (hbag s hs t ht),
    forall_mem_crossProduct fun s hs t ht => Bag.top_mono (hbag s hs t ht), fun hlength =>
    forall_mem_crossProduct fun s hs t ht => ⟨?_, ?_⟩⟩
  · have := ha.depth_le s hs
    have := hb.depth_le t ht
    simp only [depth]
    omega
  · refine (Bag.top_mono (hbag s hs t ht)).trans_lt ?_
    exact (Order.lt_add_one_iff.2 le_rfl).trans_eq Bag.top_single.symm
  · -- several products come from several terms on one side at least
    rw [length_crossProduct] at hlength
    by_cases htwo : 2 ≤ es.length
    · exact add_lt_add_of_lt_of_le (ha.several htwo s hs).2 (hb.rank_le t ht).1
    · have hfs : 2 ≤ fs.length := by
        by_contra hfs
        have hone : es.length * fs.length ≤ 1 * 1 :=
          Nat.mul_le_mul (Nat.lt_succ_iff.1 (not_le.1 htwo)) (Nat.lt_succ_iff.1 (not_le.1 hfs))
        omega
      exact add_lt_add_of_le_of_lt (ha.rank_le s hs).1 (hb.several hfs t ht).2

theorem div (ha : RankSplits a es) (hb : RankSplits b fs) (htidy : ∀ s, NoLarger s (tidy s)) :
    RankSplits (.div a b) (es.map fun e => .div e (tidy (sumOf fs))) := by
  obtain ⟨hpower, hdepth⟩ := hb.collect htidy
  have hsize : ∀ t ∈ es, t.rank.quotientSize (tidy (sumOf fs)).rank ≤ a.rank.quotientSize b.rank :=
    fun t ht => Rank.quotientSize_mono (Rank.base_mono (ha.rank_le t ht)) (ha.rank_le t ht).1
      (Bag.top_mono hpower)
  refine ⟨List.forall_mem_map.2 fun t ht => ?_, List.forall_mem_map.2 fun t ht => ?_,
    List.forall_mem_map.2 fun t ht => ?_, fun hlength => List.forall_mem_map.2 fun t ht => ?_⟩
  · have := ha.depth_le t ht
    simp only [depth]
    omega
  · exact Rank.quotient_le_quotient (hsize t ht)
  · exact Bag.top_single.trans_le (hsize t ht)
  · rw [List.length_map] at hlength
    have hlt : t.rank.quotientSize (tidy (sumOf fs)).rank < a.rank.quotientSize b.rank :=
      Rank.quotientSize_lt (Rank.base_mono (ha.rank_le t ht)) (ha.several hlength t ht).2
        (Bag.top_mono hpower)
    exact ⟨Bag.top_single.trans_lt (hlt.trans_eq Bag.top_single.symm), Bag.single_lt_single.2 hlt⟩

theorem apply (g : Elementary) (ha : RankSplits a es) (htidy : ∀ s, NoLarger s (tidy s)) :
    RankSplits (.apply g a) [.apply g (tidy (sumOf es))] := by
  obtain ⟨hpower, hdepth⟩ := ha.collect htidy
  have hbase : (tidy (sumOf es)).rank.base + 1 ≤ a.rank.base + 1 :=
    add_le_add_left (Bag.top_mono hpower) 1
  refine rankSplits_singleton ?_ (Rank.plain_mono hbase) (Bag.top_single.trans_le hbase)
  simp only [depth]
  omega

/-- A power of a base that is no sum of terms. -/
theorem pow (ha : RankSplits a es) (htidy : ∀ s, NoLarger s (tidy s)) (hf : f.depth ≤ b.depth) :
    RankSplits (.pow a b) [.pow (tidy (sumOf es)) f] := by
  obtain ⟨hpower, hdepth⟩ := ha.collect htidy
  refine rankSplits_singleton ?_ (Rank.raised_mono hpower) (Bag.top_mono hpower)
  simp only [depth]
  omega

end RankSplits

/-! ### Powers of sums -/

/-- The measure of expansion: the depth of an expression, among expressions of one depth the size as
a term of a sum, and then the size outside of exponents. -/
noncomputable def expansionMeasure (e : Expr κ) : (ℕ ×ₗ Ordinal.{0}) ×ₗ ℕ :=
  toLex (toLex (e.depth, e.rank.term), e.outerSize)

omit [Number κ] in
theorem expansionMeasure_lt_of_depth (h : f.depth < e.depth) :
    f.expansionMeasure < e.expansionMeasure :=
  Prod.Lex.toLex_lt_toLex.2 (.inl (Prod.Lex.toLex_lt_toLex.2 (.inl h)))

omit [Number κ] in
theorem expansionMeasure_lt_of_term (hdepth : f.depth ≤ e.depth)
    (hterm : f.rank.term < e.rank.term) : f.expansionMeasure < e.expansionMeasure := by
  rcases hdepth.lt_or_eq with hlt | heq
  · exact expansionMeasure_lt_of_depth hlt
  · exact Prod.Lex.toLex_lt_toLex.2 (.inl (Prod.Lex.toLex_lt_toLex.2 (.inr ⟨heq, hterm⟩)))

/-- **The first factors of a power of a sum** give terms with smaller factors than the power, and
sums of such terms. -/
theorem powerTermsWith_spec (htidy : ∀ s, NoLarger s (tidy s))
    (hagain : ∀ f : Expr κ, f.expansionMeasure < (Expr.pow a b).expansionMeasure →
      RankSplits f (again f))
    (hes : ∀ t ∈ es, t.rank.bag.top < a.rank.base ∧ t.depth ≤ (Expr.pow a b).depth) (k : ℕ) :
    (∀ t ∈ powerTermsWith tidy again es k,
        t.rank.bag.top < a.rank.base ∧ t.depth ≤ (Expr.pow a b).depth) ∧
      ∀ s ∈ powerSums tidy again es k,
        (tidy s).expansionMeasure < (Expr.pow a b).expansionMeasure := by
  induction k with
  | zero =>
      refine ⟨List.forall_mem_singleton.2 ⟨?_, Nat.zero_le _⟩, by simp [powerSums]⟩
      exact Bag.top_zero.trans_lt a.rank.base_pos
  | succ k ih =>
      obtain ⟨hterms, hsums⟩ := ih
      have hpos : 1 ≤ (Expr.pow a b).depth := (Nat.le_add_left 1 b.depth).trans (le_max_right _ _)
      have hcross : ∀ t ∈ crossProduct (powerTermsWith tidy again es k) es,
          t.rank.bag.top < a.rank.base ∧ t.depth ≤ (Expr.pow a b).depth := by
        refine forall_mem_crossProduct fun s hs t ht => ⟨?_, ?_⟩
        · exact (Bag.top_add _ _).trans_lt (max_lt (hterms s hs).1 (hes t ht).1)
        · exact max_le hpos (max_le (hterms s hs).2 (hes t ht).2)
      have hsum := htidy (sumOf (crossProduct (powerTermsWith tidy again es k) es))
      have hterm := hsum.rank_le.2.2.trans_lt
        (term_sumOf_lt a.rank.base_pos fun t ht => (hcross t ht).1)
      have hdepth := hsum.depth_le.trans (depth_sumOf_le hpos fun t ht => (hcross t ht).2)
      have hlt := expansionMeasure_lt_of_term hdepth hterm
      have hsplits := hagain _ hlt
      refine ⟨fun t ht => ⟨(hsplits.top_le t ht).trans_lt hterm, ?_⟩,
        List.forall_mem_append.2 ⟨hsums, List.forall_mem_singleton.2 hlt⟩⟩
      exact (hsplits.depth_le t ht).trans hdepth

omit [Number κ] in
/-- The terms of a power that is multiplied out. -/
theorem rankSplits_pow
    (h : ∀ t ∈ es, t.rank.bag.top < a.rank.base ∧ t.depth ≤ (Expr.pow a b).depth) :
    RankSplits (.pow a b) es where
  depth_le t ht := (h t ht).2
  rank_le t ht := Rank.le_raised_of_top_lt (h t ht).1
  top_le t ht := (h t ht).1.le
  several _ t ht := ⟨(h t ht).1.trans_eq a.rank.base_raised.symm,
    (Bag.lt_single_of_top_lt (h t ht).1).trans_le a.rank.single_base_le⟩

/-! ### The recursion of the rules -/

/-- **The terms of an operation are no larger**, if those of its operands are not, and the sums that
are collected in a power are smaller. -/
theorem rankSplits_root (htidy : ∀ s, NoLarger s (tidy s))
    (hsplit : ∀ a ∈ e.operands, RankSplits a (split a))
    (hagain : ∀ f : Expr κ, f.expansionMeasure < e.expansionMeasure → RankSplits f (again f)) :
    RankSplits e (e.expandedRoot tidy again split) ∧
      ∀ s ∈ e.rebuiltSums tidy again split, (tidy s).expansionMeasure < e.expansionMeasure := by
  have none {es : List (Expr κ)} (h : RankSplits e es) :
      RankSplits e es ∧
        ∀ s ∈ ([] : List (Expr κ)), (tidy s).expansionMeasure < e.expansionMeasure :=
    ⟨h, by simp⟩
  cases e with
  | var | const => exact none (rankSplits_singleton le_rfl le_rfl (top_le_term rfl))
  | add a b => exact none (.add (hsplit a (by simp [operands])) (hsplit b (by simp [operands])))
  | sub a b => exact none (.sub (hsplit a (by simp [operands])) (hsplit b (by simp [operands])))
  | mul a b => exact none (.mul (hsplit a (by simp [operands])) (hsplit b (by simp [operands])))
  | div a b =>
      exact none (.div (hsplit a (by simp [operands])) (hsplit b (by simp [operands])) htidy)
  | apply g a => exact none (.apply g (hsplit a (by simp [operands])) htidy)
  | pow a b =>
      have ha := hsplit a (by simp [operands])
      have hb := hsplit b (by simp [operands])
      simp only [expandedRoot, rebuiltSums]
      split
      · rename_i k hk
        split
        · exact none (ha.pow htidy le_rfl)
        · rename_i hlength
          have hseveral := ha.several (not_lt.1 hlength)
          obtain ⟨hterms, hsums⟩ := powerTermsWith_spec htidy hagain
            (fun t ht => ⟨(hseveral t ht).1, (ha.depth_le t ht).trans (le_max_left _ _)⟩) k
          exact ⟨rankSplits_pow hterms, hsums⟩
      · exact none (ha.pow htidy (hb.collect htidy).2)

omit [Number κ] in
/-- Operands are smaller than the operation. -/
theorem expansionMeasure_operand (h : a ∈ e.operands) :
    a.expansionMeasure < e.expansionMeasure := by
  rcases operand_within h with hdepth | ⟨hrank, hsize⟩
  · exact expansionMeasure_lt_of_depth hdepth
  · rcases hrank.2.2.lt_or_eq with hlt | hterm
    · exact expansionMeasure_lt_of_term (depth_operand h) hlt
    · rcases (depth_operand h).lt_or_eq with hlt | hdepth
      · exact expansionMeasure_lt_of_depth hlt
      · refine Prod.Lex.toLex_lt_toLex.2 (.inr ⟨?_, hsize⟩)
        rw [hterm, hdepth]

/-- The terms of an expression, with a function for all that expansion calls. -/
def expandedStep (tidy : Expr κ → Expr κ) (again : Expr κ → List (Expr κ)) (e : Expr κ) :
    List (Expr κ) :=
  e.expandedRoot tidy again again

/-- The expressions whose terms the expansion of an expression calls for: its operands, and the
simplified sums that are collected in a power. -/
def expansionCalls (tidy : Expr κ → Expr κ) (again : Expr κ → List (Expr κ)) (e : Expr κ) :
    List (Expr κ) :=
  e.operands ++ (e.rebuiltSums tidy again again).map tidy

/-- Expansion is a recursion along its measure, whatever simplifies the sums, as long as it makes
nothing larger. -/
theorem descends_expand (htidy : ∀ s : Expr κ, NoLarger s (tidy s)) :
    Descends expansionMeasure (expandedStep tidy) (expansionCalls tidy) RankSplits where
  decrease F e hF := by
    have hsums := (rankSplits_root htidy (fun a ha => hF a (expansionMeasure_operand ha)) hF).2
    exact List.forall_mem_append.2 ⟨fun a ha => expansionMeasure_operand ha,
      List.forall_mem_map.2 hsums⟩
  good F e hF := (rankSplits_root htidy (fun a ha => hF a (expansionMeasure_operand ha)) hF).1
  complete F G e h := by
    obtain ⟨hoperands, hsums⟩ := List.forall_mem_append.1 h
    exact expandedRoot_congr hoperands (fun _ _ => rfl) fun s hs =>
      hsums _ (List.mem_map_of_mem hs)

/-- The terms of an expression, however deep powers are multiplied out within powers. -/
noncomputable def unboundedTerms : Expr κ → List (Expr κ) :=
  recursion expansionMeasure (expandedStep unboundedSimplify)

/-- **Expansion ends.** -/
theorem recurses_expand (e : Expr κ) :
    Recurses unboundedTerms (expandedStep unboundedSimplify) (expansionCalls unboundedSimplify)
      expansionMeasure e :=
  (descends_expand noLarger_unboundedSimplify).recurses e

/-- Its rules describe no other function. -/
theorem eq_unboundedTerms (hagain : ∀ e, expandedStep unboundedSimplify again e = again e)
    (e : Expr κ) : again e = e.unboundedTerms :=
  (Recurses.unique recurses_expand hagain e).symm

end Expr

end Reckoner
