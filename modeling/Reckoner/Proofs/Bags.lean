/-
**Bags of ordinals.**

Simplification makes new factors out of old ones, and there may be more of them than before as long
as they are smaller: one large factor outweighs any number of smaller ones.  What decreases is the
bag of the sizes of all factors, where of two bags the one that has more of the largest ordinal on
which they differ is the larger.

This order is linear and well-founded, and the addition of bags respects it.  It is the order of the
ordinals themselves: a bag has a value, the sum of the powers of `ω` with its elements as exponents,
and a larger bag has a larger value.  The value is what allows a bag to become an element of another
bag, as it does when a whole product is the numerator of a single factor.

Main definitions:

* `Reckoner.Bag` — finite bags of ordinals, with their order;
* `Reckoner.Bag.top` — the largest element of a bag;
* `Reckoner.Bag.value` — the value of a bag.

Main results:

* `Reckoner.Bag.lt_single_iff` — one ordinal outweighs any number of smaller ones;
* `Reckoner.Bag.top_le_iff` — the largest element by the order of bags;
* `Reckoner.Bag.value_strictMono` — **a larger bag has a larger value**.
-/

import Mathlib.Data.Finsupp.Lex
import Mathlib.Data.Finsupp.WellFounded
import Mathlib.SetTheory.Ordinal.CantorNormalForm
import Mathlib.Tactic

set_option autoImplicit false

namespace Reckoner

open Ordinal

/-- Finite bags of ordinals, ordered by the number of their largest elements first. -/
abbrev Bag := Colex (Ordinal.{0} →₀ ℕ)

namespace Bag

variable {m n : Bag} {x y : Ordinal.{0}}

/-! ### Bags with one element -/

/-- The bag of one ordinal. -/
noncomputable def single (x : Ordinal.{0}) : Bag := toColex (Finsupp.single x 1)

@[simp] theorem single_le_single : single x ≤ single y ↔ x ≤ y := Finsupp.Colex.single_le_iff

@[simp] theorem single_lt_single : single x < single y ↔ x < y := Finsupp.Colex.single_lt_iff

theorem zero_le (m : Bag) : 0 ≤ m := bot_le

/-- The elements of a bag are no larger than the bag. -/
theorem single_le_of_mem (h : x ∈ (ofColex m).support) : single x ≤ m := by
  have hone : 1 ≤ ofColex m x := Nat.one_le_iff_ne_zero.2 (Finsupp.mem_support_iff.1 h)
  exact Finsupp.toColex_monotone (Finsupp.single_le_iff.2 hone)

/-- **One ordinal outweighs any number of smaller ones.** -/
theorem lt_single_iff : m < single x ↔ ∀ y ∈ (ofColex m).support, y < x := by
  constructor
  · intro h y hy
    exact single_lt_single.1 ((single_le_of_mem hy).trans_lt h)
  · intro h
    have none {y : Ordinal.{0}} (hy : x ≤ y) : ofColex m y = 0 :=
      Finsupp.notMem_support_iff.1 fun hmem => absurd (h y hmem) (not_lt.2 hy)
    refine Finsupp.Colex.lt_iff.2 ⟨x, fun y hy => ?_, ?_⟩
    · rw [none hy.le]
      exact (Finsupp.single_eq_of_ne hy.ne').symm
    · rw [none le_rfl]
      simp [single]

theorem single_pos (x : Ordinal.{0}) : 0 < single x := lt_single_iff.2 (by simp)

theorem add_lt_single (hm : m < single x) (hn : n < single x) : m + n < single x := by
  rw [lt_single_iff] at hm hn ⊢
  intro y hy
  rcases Finset.mem_union.1 (Finsupp.support_add hy) with h | h
  · exact hm y h
  · exact hn y h

theorem le_add_right (m n : Bag) : m ≤ m + n := le_add_of_nonneg_right (zero_le n)

theorem le_add_left (m n : Bag) : n ≤ m + n := le_add_of_nonneg_left (zero_le m)

/-! ### The largest element -/

/-- The largest element of a bag, and zero if there is none. -/
noncomputable def top (m : Bag) : Ordinal.{0} := (ofColex m).support.sup id

theorem top_le_iff : m.top ≤ x ↔ m < single (x + 1) := by
  simp only [top, Finset.sup_le_iff, lt_single_iff, id, Order.lt_add_one_iff]

theorem lt_single_top (m : Bag) : m < single (m.top + 1) := top_le_iff.1 le_rfl

theorem top_mono (h : m ≤ n) : m.top ≤ n.top := top_le_iff.2 (h.trans_lt n.lt_single_top)

theorem lt_single_of_top_lt (h : m.top < x) : m < single x :=
  m.lt_single_top.trans_le (single_le_single.2 (Order.add_one_le_iff.2 h))

@[simp] theorem top_zero : (0 : Bag).top = 0 := by
  simp [top]

@[simp] theorem top_single : (single x).top = x := by
  refine le_antisymm (top_le_iff.2 (single_lt_single.2 (lt_add_one x))) ?_
  exact Order.lt_add_one_iff.1 (single_lt_single.1 (single x).lt_single_top)

@[simp] theorem top_add (m n : Bag) : (m + n).top = max m.top n.top := by
  refine le_antisymm (top_le_iff.2 (add_lt_single ?_ ?_))
    (max_le (top_mono (le_add_right m n)) (top_mono (le_add_left m n)))
  · exact top_le_iff.1 (le_max_left _ _)
  · exact top_le_iff.1 (le_max_right _ _)

/-- A bag whose largest element is not zero has this element. -/
theorem single_top_le (h : m.top ≠ 0) : single m.top ≤ m := by
  have hne : (ofColex m).support.Nonempty := by
    rw [Finset.nonempty_iff_ne_empty]
    rintro hempty
    simp [top, hempty] at h
  obtain ⟨x, hx, htop⟩ := Finset.exists_mem_eq_sup _ hne id
  rw [top, htop]
  exact single_le_of_mem hx

/-! ### Values -/

/-- How often each ordinal occurs. -/
noncomputable def count (m : Bag) : Ordinal.{0} →₀ Ordinal.{0} :=
  (ofColex m).mapRange Nat.cast Nat.cast_zero

theorem count_apply (m : Bag) (x : Ordinal.{0}) : m.count x = (ofColex m x : ℕ) := by
  simp [count]

theorem of_mem_filter {p : Ordinal.{0} → Prop} [DecidablePred p]
    (h : x ∈ (m.count.filter p).support) : p x := by
  rw [Finsupp.support_filter] at h
  exact (Finset.mem_filter.1 h).2

/-- The sum of the powers of `ω` with the elements of a bag as exponents, the largest one first. -/
noncomputable def value (m : Bag) : Ordinal.{0} := CNF.eval ω m.count

/-- The value of a bag, split at an ordinal. -/
theorem value_eq (m : Bag) (x : Ordinal.{0}) :
    m.value = CNF.eval ω (m.count.filter (x < ·)) +
      (ω ^ x * m.count x + CNF.eval ω (m.count.filter (· < x))) := by
  have hsplit : m.count = m.count.filter (x < ·) +
      (Finsupp.single x (m.count x) + m.count.filter (· < x)) := by
    ext y
    rcases lt_trichotomy x y with h | rfl | h
    · simp [h, h.not_gt, h.ne']
    · simp
    · simp [h, h.not_gt, h.ne]
  rw [value]
  conv_lhs => rw [hsplit]
  rw [CNF.eval_add, CNF.eval_single_add']
  · exact fun y hy => of_mem_filter (p := (· < x)) hy
  · intro y hy z hz
    have habove : x < y := of_mem_filter (p := (x < ·)) hy
    rcases Finset.mem_union.1 (Finsupp.support_add hz) with h | h
    · obtain rfl := Finset.mem_singleton.1 (Finsupp.support_single_subset h)
      exact habove.le
    · have hbelow : z < x := of_mem_filter (p := (· < x)) h
      exact (hbelow.trans habove).le

/-- **A larger bag has a larger value.** -/
theorem value_strictMono : StrictMono value := by
  intro m n h
  obtain ⟨x, hhigh, hlt⟩ := Finsupp.Colex.lt_iff.1 h
  have hfilter : m.count.filter (x < ·) = n.count.filter (x < ·) := by
    ext y
    by_cases hy : x < y
    · simp [hy, count_apply, hhigh y hy]
    · simp [hy]
  -- what is below the ordinal counts less than one occurrence of it
  have hlow : CNF.eval ω (m.count.filter (· < x)) < ω ^ x := by
    refine CNF.eval_lt (fun y => ?_) fun y hy => ?_
    · rw [Finsupp.filter_apply]
      split
      · rw [count_apply]
        exact natCast_lt_omega0 _
      · exact omega0_pos
    · exact of_mem_filter (p := (· < x)) hy
  rw [value_eq m x, value_eq n x, hfilter]
  refine add_lt_add_right ?_ _
  calc ω ^ x * m.count x + CNF.eval ω (m.count.filter (· < x))
      < ω ^ x * m.count x + ω ^ x := add_lt_add_right hlow _
    _ = ω ^ x * (m.count x + 1) := (mul_add_one _ _).symm
    _ ≤ ω ^ x * n.count x := by
        refine mul_le_mul_right ?_ _
        rw [count_apply, count_apply]
        exact_mod_cast hlt
    _ ≤ ω ^ x * n.count x + CNF.eval ω (n.count.filter (· < x)) := le_self_add

theorem value_le_value : m.value ≤ n.value ↔ m ≤ n := value_strictMono.le_iff_le

end Bag

end Reckoner
