/-
**The rank of an expression.**

Nothing that is counted of an expression decreases when it is simplified: two factors `x` may become
any power of `x`, depending on what the sum of two numbers is, and an atom of a sum may be replaced
by another atom with the same text.  A measure for the rules can therefore depend neither on the
numbers of an expression nor on how often a factor occurs in a sum.

The *rank* of an expression consists of the bag of its factors, of its size as a term of a sum, and
of the bag of its factors when it is raised to a power.  A sum is larger than all factors of its
terms, however many there are.  A product has the factors of both sides.  A power is as large as its
base, whatever the exponent is, and only a power of a power is a little larger.  A quotient is
larger than numerator and denominator, and larger the more factors its numerator has.

Exponents do not count, except that the *depth* of an expression says how deep they are nested.

Main definitions:

* `Reckoner.Rank` — ranks, with their order and the operations of expressions;
* `Reckoner.Expr.rank`, `Reckoner.Expr.depth` — rank and depth of an expression;
* `Reckoner.Expr.outerSize` — the size of an expression without exponents;
* `Reckoner.Expr.NoLarger` — the relation of an expression to one that is no larger.

Main results:

* `Reckoner.Rank.le_sum`, `Reckoner.Rank.le_product`, `Reckoner.Rank.le_plain` — comparison with an
  operation;
* `Reckoner.Expr.operand_within` — an operand is nested less deep, or smaller;
* `Reckoner.Expr.rank_mapOperands_le` — no larger operands make no larger operation.
-/

import Reckoner.Proofs.Bags
import Reckoner.Proofs.Recursion

set_option autoImplicit false

namespace Reckoner

open Bag (single)

/-! ### Ranks -/

/-- The rank of an expression. -/
@[ext] structure Rank where
  /-- The bag of the factors. -/
  bag : Bag
  /-- The bag of the factors of a power. -/
  power : Bag
  /-- The size of the largest factor of a term. -/
  term : Ordinal.{0}
  /-- The factors of a term are no larger than those of the expression itself. -/
  term_le : term ≤ bag.top
  /-- An expression is no larger than a power of it. -/
  bag_le : bag ≤ power
  /-- A power is no larger than the sum of its terms. -/
  power_le : power ≤ single (term + 1)
  /-- No power is without factors. -/
  one_le : 1 ≤ power.top

namespace Rank

variable {p p' q q' : Rank} {x y : Ordinal.{0}}

instance : Preorder Rank where
  le p q := p.bag ≤ q.bag ∧ p.power ≤ q.power ∧ p.term ≤ q.term
  le_refl p := ⟨le_rfl, le_rfl, le_rfl⟩
  le_trans _ _ _ h h' := ⟨h.1.trans h'.1, h.2.1.trans h'.2.1, h.2.2.trans h'.2.2⟩

/-- The size of an expression as a base. -/
noncomputable def base (p : Rank) : Ordinal.{0} := p.power.top

theorem base_mono (h : p ≤ q) : p.base ≤ q.base := Bag.top_mono h.2.1

theorem top_le_base (p : Rank) : p.bag.top ≤ p.base := Bag.top_mono p.bag_le

theorem base_pos (p : Rank) : 0 < p.base := zero_lt_one.trans_le p.one_le

theorem term_le_base (p : Rank) : p.term ≤ p.base := p.term_le.trans p.top_le_base

theorem single_base_le (p : Rank) : single p.base ≤ p.power :=
  Bag.single_top_le fun h => absurd p.one_le (by simp [h])

theorem single_one_le (p : Rank) : single 1 ≤ p.power :=
  (Bag.single_le_single.2 p.one_le).trans p.single_base_le

/-! ### Operations -/

/-- The rank of a number. -/
noncomputable def number : Rank where
  bag := 0
  power := single 1
  term := 0
  term_le := bot_le
  bag_le := Bag.zero_le _
  power_le := by rw [zero_add]
  one_le := Bag.top_single.ge

/-- The rank of what is a single factor. -/
noncomputable def plain (x : Ordinal.{0}) (hx : 1 ≤ x) : Rank where
  bag := single x
  power := single x
  term := x
  term_le := Bag.top_single.ge
  bag_le := le_rfl
  power_le := Bag.single_le_single.2 (lt_add_one x).le
  one_le := hx.trans_eq Bag.top_single.symm

/-- The rank of a sum or a difference.  The first operand of a sum stands for its terms. -/
noncomputable def sum (p q : Rank) : Rank where
  bag := single (max p.term q.bag.top + 1)
  power := single (max p.term q.bag.top + 1)
  term := max p.term q.bag.top
  term_le := (lt_add_one _).le.trans_eq Bag.top_single.symm
  bag_le := le_rfl
  power_le := le_rfl
  one_le := le_add_self.trans_eq Bag.top_single.symm

/-- The rank of a product. -/
noncomputable def product (p q : Rank) : Rank where
  bag := p.bag + q.bag
  power := single ((p.bag + q.bag).top + 1)
  term := (p.bag + q.bag).top
  term_le := le_rfl
  bag_le := (p.bag + q.bag).lt_single_top.le
  power_le := le_rfl
  one_le := le_add_self.trans_eq Bag.top_single.symm

/-- The size of a quotient. -/
noncomputable def quotientSize (p q : Rank) : Ordinal.{0} := max p.base q.base + 1 + 1 + p.bag.value

theorem max_add_two_le (p q : Rank) : max p.base q.base + 1 + 1 ≤ p.quotientSize q :=
  le_self_add

/-- A quotient is larger than its numerator as one factor. -/
theorem num_lt_quotientSize (p q : Rank) : p.base + 1 < p.quotientSize q := by
  have hle : p.base + 1 + 1 ≤ max p.base q.base + 1 + 1 :=
    add_le_add_left (add_le_add_left (le_max_left _ _) 1) 1
  exact Order.add_one_le_iff.1 (hle.trans (p.max_add_two_le q))

/-- A quotient is larger than its denominator. -/
theorem den_lt_quotientSize (p q : Rank) : q.base < p.quotientSize q := by
  have hlt : q.base < max p.base q.base + 1 + 1 :=
    (le_max_right p.base q.base).trans_lt ((lt_add_one _).trans (lt_add_one _))
  exact hlt.trans_le (p.max_add_two_le q)

theorem one_le_quotientSize (p q : Rank) : 1 ≤ p.quotientSize q :=
  le_add_self.trans (p.num_lt_quotientSize q).le

/-- The rank of a quotient. -/
noncomputable def quotient (p q : Rank) : Rank :=
  plain (p.quotientSize q) (p.one_le_quotientSize q)

/-- The rank of a power, whatever the exponent is. -/
noncomputable def raised (p : Rank) : Rank where
  bag := p.power
  power := p.power + single 0
  term := p.base
  term_le := le_rfl
  bag_le := Bag.le_add_right _ _
  power_le := (Bag.add_lt_single p.power.lt_single_top
    (Bag.single_lt_single.2 (Order.lt_add_one_iff.2 bot_le))).le
  one_le := p.one_le.trans (Bag.top_mono (Bag.le_add_right _ _))

/-! ### Comparison with an operation -/

theorem number_le (p : Rank) : number ≤ p :=
  ⟨Bag.zero_le _, p.single_one_le, bot_le⟩

/-- What has no larger factors in its terms than a sum has, is no larger than the sum. -/
theorem le_sum (h : p.term ≤ max p'.term q'.bag.top) : p ≤ p'.sum q' := by
  have hpower : p.power ≤ (p'.sum q').power :=
    p.power_le.trans (Bag.single_le_single.2 (add_le_add_left h 1))
  exact ⟨p.bag_le.trans hpower, hpower, h⟩

/-- What has no larger bag of factors than a product has, is no larger than the product. -/
theorem le_product (h : p.bag ≤ p'.bag + q'.bag) : p ≤ p'.product q' := by
  have hterm : p.term ≤ (p'.product q').term := p.term_le.trans (Bag.top_mono h)
  exact ⟨h, p.power_le.trans (Bag.single_le_single.2 (add_le_add_left hterm 1)), hterm⟩

/-- What is smaller as a base than a single factor, is no larger than the factor. -/
theorem le_plain {hx : 1 ≤ x} (h : p.base < x) : p ≤ plain x hx := by
  have hpower : p.power ≤ (plain x hx).power := (Bag.lt_single_of_top_lt h).le
  exact ⟨p.bag_le.trans hpower, hpower, p.term_le_base.trans h.le⟩

theorem le_quotient (h : p.base < p'.quotientSize q') : p ≤ p'.quotient q' := le_plain h

theorem num_le_quotient (p q : Rank) : p ≤ p.quotient q :=
  le_quotient ((le_add_right le_rfl).trans_lt (p.num_lt_quotientSize q))

theorem le_raised (p : Rank) : p ≤ p.raised :=
  ⟨p.bag_le, Bag.le_add_right _ _, p.term_le_base⟩

/-- What has smaller factors than a power, is no larger than the power. -/
theorem le_raised_of_top_lt (h : p.bag.top < q.base) : p ≤ q.raised := by
  have hterm := p.term_le.trans_lt h
  have hpower : p.power ≤ q.power := (p.power_le.trans
    (Bag.single_le_single.2 (Order.add_one_le_iff.2 hterm))).trans q.single_base_le
  exact ⟨p.bag_le.trans hpower, hpower.trans (Bag.le_add_right _ _), hterm.le⟩

theorem base_raised (p : Rank) : p.raised.base = p.base := by
  simp [base, raised]

/-! ### Operations on smaller operands -/

theorem sum_mono (hp : p ≤ p') (hq : q ≤ q') : p.sum q ≤ p'.sum q' :=
  le_sum (max_le_max hp.2.2 (Bag.top_mono hq.1))

theorem product_mono (hp : p ≤ p') (hq : q ≤ q') : p.product q ≤ p'.product q' :=
  le_product (add_le_add hp.1 hq.1)

theorem plain_mono {hx : 1 ≤ x} {hy : 1 ≤ y} (h : x ≤ y) : plain x hx ≤ plain y hy :=
  ⟨Bag.single_le_single.2 h, Bag.single_le_single.2 h, h⟩

theorem quotientSize_mono (hp : p.base ≤ p'.base) (hbag : p.bag ≤ p'.bag) (hq : q.base ≤ q'.base) :
    p.quotientSize q ≤ p'.quotientSize q' :=
  add_le_add (add_le_add_left (add_le_add_left (max_le_max hp hq) 1) 1) (Bag.value_le_value.2 hbag)

/-- A quotient whose numerator has a smaller bag of factors is smaller. -/
theorem quotientSize_lt (hp : p.base ≤ p'.base) (hbag : p.bag < p'.bag) (hq : q.base ≤ q'.base) :
    p.quotientSize q < p'.quotientSize q' :=
  add_lt_add_of_le_of_lt (add_le_add_left (add_le_add_left (max_le_max hp hq) 1) 1)
    (Bag.value_strictMono hbag)

theorem quotient_le_quotient (h : p.quotientSize q ≤ p'.quotientSize q') :
    p.quotient q ≤ p'.quotient q' :=
  plain_mono h

theorem quotient_mono (hp : p ≤ p') (hq : q ≤ q') : p.quotient q ≤ p'.quotient q' :=
  quotient_le_quotient (quotientSize_mono (base_mono hp) hp.1 (base_mono hq))

theorem raised_mono (hp : p.power ≤ p'.power) : p.raised ≤ p'.raised :=
  ⟨hp, add_le_add_left hp _, Bag.top_mono hp⟩

end Rank

/-! ### Expressions -/

namespace Expr

variable {κ : Type} {a b e f u : Expr κ}

/-- The rank of an expression. -/
noncomputable def rank : Expr κ → Rank
  | .var _ => .plain 1 le_rfl
  | .const _ => .number
  | .add a b | .sub a b => a.rank.sum b.rank
  | .mul a b => a.rank.product b.rank
  | .div a b => a.rank.quotient b.rank
  | .pow a _ => a.rank.raised
  | .apply _ a => .plain (a.rank.base + 1) le_add_self

/-- How deep exponents are nested in an expression.  Numbers as exponents do not count. -/
def depth : Expr κ → ℕ
  | .const _ => 0
  | .var _ => 1
  | .add a b | .sub a b | .mul a b | .div a b => max 1 (max a.depth b.depth)
  | .pow a b => max a.depth (b.depth + 1)
  | .apply _ a => max 1 a.depth

/-- The number of nodes outside of exponents. -/
def outerSize : Expr κ → ℕ
  | .var _ | .const _ => 1
  | .add a b | .sub a b | .mul a b | .div a b => a.outerSize + b.outerSize + 1
  | .pow a _ | .apply _ a => a.outerSize + 1

theorem isConst_iff_depth : e.isConst = true ↔ e.depth = 0 := by
  cases e <;> simp [isConst, depth]

theorem one_le_depth (h : e.isConst = false) : 1 ≤ e.depth := by
  rw [Nat.one_le_iff_ne_zero]
  intro hdepth
  simp [isConst_iff_depth.2 hdepth] at h

theorem depth_operand (h : a ∈ e.operands) : a.depth ≤ e.depth := by
  cases e <;> simp only [operands, List.mem_cons, List.not_mem_nil, or_false] at h <;>
    rcases h with rfl | rfl <;> simp only [depth] <;> omega

/-- An operand is nested less deep than the operation, as an exponent is, or it is no larger and has
fewer nodes outside of exponents. -/
theorem operand_within (h : a ∈ e.operands) :
    a.depth < e.depth ∨ a.rank ≤ e.rank ∧ a.outerSize < e.outerSize := by
  cases e with
  | var | const => simp [operands] at h
  | add b c | sub b c =>
      simp only [operands, List.mem_cons, List.not_mem_nil, or_false] at h
      rcases h with rfl | rfl
      · exact .inr ⟨Rank.le_sum (le_max_left _ _), by simp only [outerSize]; omega⟩
      · exact .inr ⟨Rank.le_sum (a.rank.term_le.trans (le_max_right _ _)),
          by simp only [outerSize]; omega⟩
  | mul b c =>
      simp only [operands, List.mem_cons, List.not_mem_nil, or_false] at h
      rcases h with rfl | rfl
      · exact .inr ⟨Rank.le_product (Bag.le_add_right _ _), by simp only [outerSize]; omega⟩
      · exact .inr ⟨Rank.le_product (Bag.le_add_left _ _), by simp only [outerSize]; omega⟩
  | div b c =>
      simp only [operands, List.mem_cons, List.not_mem_nil, or_false] at h
      rcases h with rfl | rfl
      · exact .inr ⟨a.rank.num_le_quotient _, by simp only [outerSize]; omega⟩
      · exact .inr ⟨Rank.le_quotient (b.rank.den_lt_quotientSize a.rank),
          by simp only [outerSize]; omega⟩
  | pow b c =>
      simp only [operands, List.mem_cons, List.not_mem_nil, or_false] at h
      rcases h with rfl | rfl
      · exact .inr ⟨a.rank.le_raised, by simp only [outerSize]; omega⟩
      · exact .inl (by simp only [depth]; omega)
  | apply g b =>
      obtain rfl := List.mem_singleton.1 h
      exact .inr ⟨Rank.le_plain (lt_add_one a.rank.base), by simp only [outerSize]; omega⟩

/-! ### Expressions that are no larger -/

/-- A sum, a difference or a product of numbers. -/
def isNumeric : Expr κ → Bool
  | .add a b | .sub a b | .mul a b => a.isConst && b.isConst
  | _ => false

/-- An expression with the depth and the rank of another one at most, which is a number if the
other one is a sum, a difference or a product of numbers. -/
structure NoLarger (e u : Expr κ) : Prop where
  /-- The exponents are nested no deeper. -/
  depth_le : u.depth ≤ e.depth
  /-- The rank is no larger. -/
  rank_le : u.rank ≤ e.rank
  /-- Numbers are added, subtracted and multiplied. -/
  folds : e.isNumeric = true → u.isConst = true

theorem NoLarger.isConst (h : NoLarger e u) (he : e.isConst = true) : u.isConst = true := by
  rw [isConst_iff_depth] at he ⊢
  exact Nat.le_zero.1 (he ▸ h.depth_le)

/-- Operands that are no larger make an operation that is no larger. -/
theorem depth_mapOperands_le {F : Expr κ → Expr κ} (h : ∀ a ∈ e.operands, NoLarger a (F a)) :
    (e.mapOperands F).depth ≤ e.depth := by
  have hdepth : ∀ a ∈ e.operands, (F a).depth ≤ a.depth := fun a ha => (h a ha).depth_le
  cases e <;> simp only [operands, List.forall_mem_cons] at hdepth <;>
    simp only [mapOperands, depth] <;> omega

theorem rank_mapOperands_le {F : Expr κ → Expr κ} (h : ∀ a ∈ e.operands, NoLarger a (F a)) :
    (e.mapOperands F).rank ≤ e.rank := by
  have hrank : ∀ a ∈ e.operands, (F a).rank ≤ a.rank := fun a ha => (h a ha).rank_le
  cases e with
  | var | const => exact le_rfl
  | add a b | sub a b =>
      simp only [operands, List.forall_mem_cons] at hrank
      exact Rank.sum_mono hrank.1 hrank.2.1
  | mul a b =>
      simp only [operands, List.forall_mem_cons] at hrank
      exact Rank.product_mono hrank.1 hrank.2.1
  | div a b =>
      simp only [operands, List.forall_mem_cons] at hrank
      exact Rank.quotient_mono hrank.1 hrank.2.1
  | pow a b =>
      simp only [operands, List.forall_mem_cons] at hrank
      exact Rank.raised_mono hrank.1.2.1
  | apply g a =>
      simp only [operands, List.forall_mem_cons] at hrank
      exact Rank.plain_mono (add_le_add_left (Rank.base_mono hrank.1) 1)

theorem isNumeric_mapOperands {F : Expr κ → Expr κ} (h : ∀ a ∈ e.operands, NoLarger a (F a))
    (he : e.isNumeric = true) : (e.mapOperands F).isNumeric = true := by
  have hconst : ∀ a ∈ e.operands, a.isConst = true → (F a).isConst = true := fun a ha =>
    (h a ha).isConst
  cases e <;> simp_all [operands, mapOperands, isNumeric]

end Expr

end Reckoner
