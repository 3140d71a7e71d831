/-
**How real numbers are printed.**

A result is printed by comparing it with numbers of ten decimal places: with an integer and the
tolerance beside it, with the middles between integers, and with the middles between numbers of six
places.  Of a number only this is printed: between which two of them it lies, or which of them it
is.  All numbers of such a cell are printed alike, the irrational ones too, so that a real number is
printed like a rational of its cell.

Main definitions:

* `Reckoner.cell` — the numbers of ten places at both sides of a number;
* `Reckoner.Reading.printed` — the rational that a real number is printed like;
* `Reckoner.Reading.formatReal` — a real number as a bare result.

Main results:

* `Reckoner.Reading.cell_printed` — that rational is in the cell of the number;
* `Reckoner.Reading.format_congr`, `Reckoner.Reading.fixed6_congr` — **the numbers of a cell are
  printed alike**;
* `Reckoner.Reading.format_printed` — **a rational among the real numbers is printed like itself**.
-/

import Mathlib.Algebra.Order.Archimedean.Real.Basic
import Mathlib.Tactic
import Reckoner.Proofs.Characters
import Reckoner.Proofs.FixedPlaces

set_option autoImplicit false

namespace Reckoner

/-! ### Cells -/

section Cells

variable {K : Type} [Field K] [LinearOrder K] [IsStrictOrderedRing K] [FloorRing K] {x y : K}

/-- The numbers of ten places at both sides of a number, as multiples of the last place. -/
def cell (x : K) : ℤ × ℤ := (⌊x * (10 ^ 10 : ℕ)⌋, ⌈x * (10 ^ 10 : ℕ)⌉)

omit [IsStrictOrderedRing K] in
theorem cell_eq (x : K) : cell x = (⌊x * 10 ^ 10⌋, ⌈x * 10 ^ 10⌉) := by
  rw [cell, Nat.cast_pow, Nat.cast_ofNat]

theorem lt_iff_of_cell (h : cell x = cell y) (z : ℤ) : x < z / 10 ^ 10 ↔ y < z / 10 ^ 10 := by
  rw [cell_eq, cell_eq] at h
  have hfloor : ⌊x * 10 ^ 10⌋ = ⌊y * 10 ^ 10⌋ := congrArg Prod.fst h
  rw [lt_div_iff₀ (by positivity), lt_div_iff₀ (by positivity), ← Int.floor_lt, ← Int.floor_lt,
    hfloor]

theorem gt_iff_of_cell (h : cell x = cell y) (z : ℤ) : z / 10 ^ 10 < x ↔ z / 10 ^ 10 < y := by
  rw [cell_eq, cell_eq] at h
  have hceil : ⌈x * 10 ^ 10⌉ = ⌈y * 10 ^ 10⌉ := congrArg Prod.snd h
  rw [div_lt_iff₀ (by positivity), div_lt_iff₀ (by positivity), ← Int.lt_ceil, ← Int.lt_ceil,
    hceil]

theorem abs_lt_iff_of_cell (h : cell x = cell y) (z : ℤ) :
    |x| < z / 10 ^ 10 ↔ |y| < z / 10 ^ 10 := by
  have hneg : -((z : K) / 10 ^ 10) = (-z : ℤ) / 10 ^ 10 := by
    push_cast
    ring
  rw [abs_lt, abs_lt, hneg, gt_iff_of_cell h, lt_iff_of_cell h]

theorem gt_abs_iff_of_cell (h : cell x = cell y) (z : ℤ) :
    z / 10 ^ 10 < |x| ↔ z / 10 ^ 10 < |y| := by
  have hneg (t : K) : (z : K) / 10 ^ 10 < -t ↔ t < (-z : ℤ) / 10 ^ 10 := by
    rw [lt_neg]
    push_cast
    rw [neg_div]
  rw [lt_abs, lt_abs, hneg, hneg, gt_iff_of_cell h, lt_iff_of_cell h]

end Cells

/-- A rational is in the same cell among the real numbers. -/
theorem cell_ratCast (q : ℚ) : cell (q : ℝ) = cell q := by
  have hcast : (q : ℝ) * 10 ^ 10 = ((q * 10 ^ 10 : ℚ) : ℝ) := by push_cast; rfl
  rw [cell_eq, cell_eq, hcast, Rat.floor_cast, Rat.ceil_cast]

namespace Reading

/-- The rational that a real number is printed like: the number itself if it has ten places, and
the middle of its cell if not. -/
noncomputable def printed (x : ℝ) : ℚ := ((cell x).1 + (cell x).2) / (2 * 10 ^ 10)

/-- A real number as a bare result. -/
noncomputable def formatReal (x : ℝ) : String := (finite (printed x)).format

/-- The rational is in the cell of the number. -/
theorem cell_printed (x : ℝ) : cell (printed x) = cell x := by
  have hprinted : printed x * 10 ^ 10 = (⌊x * 10 ^ 10⌋ + ⌈x * 10 ^ 10⌉) / 2 := by
    rw [printed, cell_eq]
    ring
  rw [cell_eq, cell_eq, hprinted]
  generalize x * 10 ^ 10 = t
  by_cases ht : (⌊t⌋ : ℝ) = t
  · have hceil : ⌈t⌉ = ⌊t⌋ := by
      conv_lhs => rw [← ht]
      exact Int.ceil_intCast _
    have hmiddle : ((⌊t⌋ : ℚ) + ⌈t⌉) / 2 = (⌊t⌋ : ℤ) := by
      rw [hceil]
      ring
    rw [hmiddle, Int.floor_intCast, Int.ceil_intCast, hceil]
  · -- the middle of the cell lies strictly between its ends, as the number does
    have hceil : ⌈t⌉ = ⌊t⌋ + 1 := by
      rw [Int.ceil_eq_iff]
      have hlow := lt_of_le_of_ne (Int.floor_le t) ht
      have hhigh := Int.lt_floor_add_one t
      constructor <;> push_cast <;> linarith
    have hmiddle : ((⌊t⌋ : ℚ) + ⌈t⌉) / 2 = ⌊t⌋ + 1 / 2 := by
      rw [hceil]
      push_cast
      ring
    rw [hmiddle, hceil, Prod.mk.injEq]
    constructor
    · rw [Int.floor_eq_iff]
      constructor <;> linarith
    · rw [Int.ceil_eq_iff]
      push_cast
      constructor <;> linarith

/-! ### Printing -/

variable {p q : ℚ}

theorem snap_eq : snap = 1 / 10 ^ 10 := by
  rw [snap, Rat.mkRat_eq_div]
  norm_num

theorem abs_eq (q : ℚ) : q.abs = |q| := by
  rcases le_total 0 q with h | h
  · rw [abs_of_nonneg h, Rat.abs_of_nonneg h]
  · rw [abs_of_nonpos h, Rat.abs_of_nonpos h]

/-- The integer nearest to a number is found by comparing with the middles between integers. -/
theorem nearestInteger_congr (h : cell p = cell q) : nearestInteger p = nearestInteger q := by
  have hsign : p < 0 ↔ q < 0 := by simpa using lt_iff_of_cell h 0
  have hnegative : ((2 * -p + 1) / 2).floor = ((2 * -q + 1) / 2).floor := by
    refine eq_of_forall_le_iff fun z => ?_
    have hmiddle (t : ℚ) : z ≤ ((2 * -t + 1) / 2).floor ↔
        ¬(((5 * 10 ^ 9 - z * 10 ^ 10 : ℤ) : ℚ) / 10 ^ 10 < t) := by
      rw [Rat.le_floor_iff, not_lt]
      push_cast
      constructor <;> intro ht <;> linarith
    rw [hmiddle, hmiddle, gt_iff_of_cell h]
  have hpositive : ((2 * p + 1) / 2).floor = ((2 * q + 1) / 2).floor := by
    refine eq_of_forall_le_iff fun z => ?_
    have hmiddle (t : ℚ) : z ≤ ((2 * t + 1) / 2).floor ↔
        ¬(t < ((z * 10 ^ 10 - 5 * 10 ^ 9 : ℤ) : ℚ) / 10 ^ 10) := by
      rw [Rat.le_floor_iff, not_lt]
      push_cast
      constructor <;> intro ht <;> linarith
    rw [hmiddle, hmiddle, lt_iff_of_cell h]
  simp only [nearestInteger, hsign, hnegative, hpositive]

/-- Whether a number lies within the tolerance of an integer. -/
theorem snap_iff_of_cell (h : cell p = cell q) (n : ℤ) :
    (p - n).abs < snap ↔ (q - n).abs < snap := by
  have hplaces (t : ℚ) : (t - n).abs < snap ↔
      ((n * 10 ^ 10 - 1 : ℤ) : ℚ) / 10 ^ 10 < t ∧ t < ((n * 10 ^ 10 + 1 : ℤ) : ℚ) / 10 ^ 10 := by
    rw [abs_eq, snap_eq, abs_lt]
    push_cast
    constructor <;> rintro ⟨hlow, hhigh⟩ <;> constructor <;> linarith
  rw [hplaces, hplaces, gt_iff_of_cell h, lt_iff_of_cell h]

/-- Six places are found by comparing with the middles between numbers of six places. -/
theorem fixed_six_congr (h : cell p = cell q) : Decimal.fixed 6 p = Decimal.fixed 6 q := by
  have hsign : p < 0 ↔ q < 0 := by simpa using lt_iff_of_cell h 0
  -- the middles between numbers of six places have seven, so that they are ends of cells
  have hbelow (z : ℤ) : |p| * 10 ^ 6 < z / 10 ^ 4 ↔ |q| * 10 ^ 6 < z / 10 ^ 4 := by
    have hplaces (t : ℚ) : |t| * 10 ^ 6 < z / 10 ^ 4 ↔ |t| < z / 10 ^ 10 := by
      constructor <;> intro ht <;> linarith
    rw [hplaces, hplaces, abs_lt_iff_of_cell h]
  have habove (z : ℤ) : z / 10 ^ 4 < |p| * 10 ^ 6 ↔ z / 10 ^ 4 < |q| * 10 ^ 6 := by
    have hplaces (t : ℚ) : z / 10 ^ 4 < |t| * 10 ^ 6 ↔ z / 10 ^ 10 < |t| := by
      constructor <;> intro ht <;> linarith
    rw [hplaces, hplaces, gt_abs_iff_of_cell h]
  refine Decimal.fixed_congr hsign ?_
  have hnearest := Decimal.isNearest_units 6 q
  generalize Decimal.units 6 q = k at hnearest ⊢
  have hlow : (k : ℚ) - 1 / 2 = (k * 10 ^ 4 - 5 * 10 ^ 3 : ℤ) / 10 ^ 4 := by
    push_cast
    ring
  have hhigh : (k : ℚ) + 1 / 2 = (k * 10 ^ 4 + 5 * 10 ^ 3 : ℤ) / 10 ^ 4 := by
    push_cast
    ring
  rw [Decimal.isNearest_iff, hlow, hhigh, ← not_lt, ← not_lt] at hnearest ⊢
  rwa [hbelow, hbelow, habove, habove]

/-- **The numbers of a cell are printed alike** as bare results. -/
theorem format_congr (h : cell p = cell q) : (finite p).format = (finite q).format := by
  have hzero : p.abs < snap ↔ q.abs < snap := by simpa using snap_iff_of_cell h 0
  simp only [format, hzero, nearestInteger_congr h, snap_iff_of_cell h, fixed_six_congr h]

/-- **The numbers of a cell are printed alike** with six places. -/
theorem fixed6_congr (h : cell p = cell q) : (finite p).fixed6 = (finite q).fixed6 := by
  simp only [fixed6, fixed_six_congr h]

/-- **A rational among the real numbers is printed like itself**, as a bare result and with six
places. -/
theorem format_printed (q : ℚ) : formatReal q = (finite q).format ∧
    (finite (printed q)).fixed6 = (finite q).fixed6 := by
  have hcell : cell (printed q) = cell q := by rw [cell_printed, cell_ratCast]
  exact ⟨format_congr hcell, fixed6_congr hcell⟩

/-! ### Texts of numbers -/

/-- The text of a number with a fixed count of places starts with a digit or a minus. -/
theorem exists_cons_fixed (places : ℕ) (q : ℚ) : ∃ c cs,
    (Decimal.fixed places q).toList = c :: cs ∧ (c = '-' ∨ c.isDigit = true) := by
  have pointed (n : ℕ) : ∃ c cs, Decimal.pointed places n = c :: cs ∧ c.isDigit = true := by
    have hne : Decimal.digits (n / Nat.pow 10 places) ≠ [] := Nat.toDigits_ne_nil
    obtain ⟨c, cs, hcs⟩ := List.exists_cons_of_ne_nil hne
    have hc : c.isDigit = true := by
      refine Decimal.isDigit_of_mem_digits (n := n / Nat.pow 10 places) ?_
      rw [hcs]
      exact List.mem_cons_self
    rw [Decimal.pointed, hcs]
    split
    · exact ⟨c, cs, rfl, hc⟩
    · exact ⟨c, _, rfl, hc⟩
  rw [Decimal.fixed, String.toList_ofList]
  split
  · exact ⟨'-', _, rfl, .inl rfl⟩
  · obtain ⟨c, cs, hcs, hc⟩ := pointed (Decimal.roundEven (q.num.natAbs * Nat.pow 10 places) q.den)
    exact ⟨c, cs, hcs, .inr hc⟩

/-- A bare result that is a finite number starts with a digit or a minus. -/
theorem exists_cons_format (q : ℚ) : ∃ c cs,
    (finite q).format.toList = c :: cs ∧ (c = '-' ∨ c.isDigit = true) := by
  rw [format]
  split
  · exact ⟨'0', [], rfl, .inr rfl⟩
  · split
    · exact exists_cons_fixed _ _
    · exact exists_cons_fixed _ _

/-- No text of a number, whatever stands behind it, starts with another character. -/
theorem formatReal_append_ne (x : ℝ) (behind : String) {text : String} {d : Char} {ds : List Char}
    (htext : text.toList = d :: ds) (hminus : d ≠ '-') (hdigit : d.isDigit = false) :
    formatReal x ++ behind ≠ text := by
  rintro rfl
  obtain ⟨c, cs, hcs, hc⟩ := exists_cons_format (printed x)
  obtain ⟨rfl, -⟩ : c = d ∧ _ := by simpa [formatReal, hcs] using htext
  rcases hc with hc | hc
  · exact hminus hc
  · rw [hc] at hdigit
    exact Bool.noConfusion hdigit

end Reading

end Reckoner
