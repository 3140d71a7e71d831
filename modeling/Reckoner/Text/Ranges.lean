/-
**Sets of characters as ranges.**

The character classes below this folder are properties of the Unicode Standard.  Each is a list
of closed ranges of code points, in increasing order.

Main definitions:

* `Reckoner.Text.inRanges` — membership of a character in such a list.
-/

set_option autoImplicit false

namespace Reckoner.Text

/-- Whether the code point of `c` lies in one of the closed ranges. -/
def inRanges (ranges : List (Nat × Nat)) (c : Char) : Bool :=
  ranges.any fun r => r.1 ≤ c.toNat && c.toNat ≤ r.2

/-- A character belongs to the set when some range holds its code point. -/
theorem inRanges_iff {ranges : List (Nat × Nat)} {c : Char} :
    inRanges ranges c = true ↔ ∃ r ∈ ranges, r.1 ≤ c.toNat ∧ c.toNat ≤ r.2 := by
  simp [inRanges]

end Reckoner.Text
