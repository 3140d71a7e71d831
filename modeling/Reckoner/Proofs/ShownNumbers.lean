/-
**Bare numbers among symbolic results.**

A symbolic result is written in LaTeX, and if the text is a number, the number that is read from it
is written once more, as a result that is a bare number.  So such a number is rounded to six places
first, and only then compared with the integer beside it.  A number at most half a millionth away
from an integer has turned into it by then, though the format of numbers would still tell them
apart.  All other numbers are shown in the format of numbers: the number that is read from the six
places is no farther from them than the one that was written, so that it has the same six places.

Main results:

* `Reckoner.Reading.written_of_near`, `Reckoner.Reading.written_of_far` — the number that is written
  in LaTeX, by the distance from the integer;
* `Reckoner.Reading.format_of_closer` — **a number no farther from the six places is printed alike**;
* `Reckoner.Binary64.exists_reading_nearestInteger` — the text of the integer beside a finite number
  is read as this integer;
* `Reckoner.Binary64.exists_reading_rounded` — the six places are read as a number no farther away;
* `Reckoner.Expr.shown_const` — **which numbers are shown in the format of numbers, and how the
  others are shown**.
-/

import Reckoner.Proofs.NearestBinary
import Reckoner.Proofs.RoundedTexts
import Reckoner.Request.Run

set_option autoImplicit false

namespace Reckoner

open Decimal (IsNearest abs_rounded abs_sub_rounded abs_sub_rounded_le denoted? rounded units)

namespace Reading

variable {q v : ℚ}

/-! ### What is written -/

/-- A number of six places is an integer number of millionths. -/
theorem exists_millionths (q : ℚ) : ∃ z : ℤ, rounded 6 q = z / 10 ^ 6 := by
  unfold rounded
  split
  · exact ⟨-units 6 q, by push_cast; ring⟩
  · exact ⟨units 6 q, by push_cast; rfl⟩

/-- A number within half a millionth of an integer is rounded to the integer. -/
theorem rounded_of_near (h : |q - nearestInteger q| ≤ 1 / (2 * 10 ^ 6)) :
    rounded 6 q = nearestInteger q := by
  have hcast : (((nearestInteger q).natAbs * 10 ^ 6 : ℕ) : ℚ) =
      |(nearestInteger q : ℚ)| * 10 ^ 6 := by
    push_cast [Nat.cast_natAbs]
    rfl
  -- in millionths the integer is even, so that a middle is rounded to it, too
  have hnearest : IsNearest ((nearestInteger q).natAbs * 10 ^ 6) (|q| * 10 ^ 6) := by
    refine ⟨?_, by omega⟩
    have hdistance := (abs_abs_sub_abs_le q (nearestInteger q)).trans h
    rw [hcast, ← sub_mul, abs_mul, abs_of_pos (by norm_num : (0 : ℚ) < 10 ^ 6)]
    linarith
  have hunits : (units 6 q : ℚ) / 10 ^ 6 = |(nearestInteger q : ℚ)| := by
    rw [(Decimal.isNearest_units 6 q).unique hnearest, hcast]
    exact mul_div_cancel_right₀ _ (by norm_num)
  rw [rounded, hunits, signed_abs_nearestInteger]

/-- The number that is written for one that lies within half a millionth of an integer is the
integer. -/
theorem written_of_near (h : |q - nearestInteger q| ≤ 1 / (2 * 10 ^ 6)) :
    written q = nearestInteger q := by
  unfold written
  split
  · rfl
  · exact rounded_of_near h

/-- All other numbers are written with six places. -/
theorem written_of_far (h : 1 / (2 * 10 ^ 6) < |q - nearestInteger q|) :
    written q = rounded 6 q := by
  rw [written, if_neg]
  rw [abs_eq, snap_eq, not_lt]
  linarith

/-- The number of six places that is written for a number far from all integers is no integer. -/
theorem rounded_apart (h : 1 / (2 * 10 ^ 6) < |q - nearestInteger q|) (z : ℤ) :
    1 / 10 ^ 6 ≤ |rounded 6 q - z| := by
  obtain ⟨k, hk⟩ := exists_millionths q
  have hmillionths : rounded 6 q - z = (k - z * 10 ^ 6 : ℤ) / 10 ^ 6 := by
    rw [hk]
    push_cast
    ring
  have hne : k - z * 10 ^ 6 ≠ 0 := by
    intro hzero
    rw [hzero, Int.cast_zero, zero_div] at hmillionths
    have hdistance := Decimal.abs_sub_rounded_le 6 q
    have hz : rounded 6 q = z := sub_eq_zero.1 hmillionths
    rw [hz] at hdistance
    have := abs_sub_nearestInteger_le q z
    linarith
  have hone : (1 : ℚ) ≤ |((k - z * 10 ^ 6 : ℤ) : ℚ)| := by exact_mod_cast Int.one_le_abs hne
  rw [hmillionths, abs_div, abs_of_pos (by norm_num : (0 : ℚ) < 10 ^ 6)]
  gcongr

/-! ### What is printed -/

/-- A number within the tolerance of an integer is written as the integer. -/
theorem format_of_snap (h : |q - nearestInteger q| < 1 / 10 ^ 10) :
    (finite q).format = Decimal.fixed 0 (nearestInteger q) := by
  have hsnap : (q - nearestInteger q).abs < snap := by rwa [abs_eq, snap_eq]
  rw [format, if_pos hsnap]
  split
  · rename_i hzero
    rw [abs_eq, snap_eq] at hzero
    have hlt : |(nearestInteger q : ℚ)| < 1 := by
      have := abs_sub_abs_le_abs_sub (nearestInteger q : ℚ) q
      rw [abs_sub_comm] at this
      linarith
    have hlt : |nearestInteger q| < 1 := by exact_mod_cast hlt
    rw [Int.abs_lt_one_iff.1 hlt]
    rfl
  · rfl

/-- An integer is written as one. -/
theorem format_intCast (n : ℤ) : (finite (n : ℚ)).format = Decimal.fixed 0 n := by
  have hsnap : |(n : ℚ) - nearestInteger n| < 1 / 10 ^ 10 := by
    rw [nearestInteger_intCast, sub_self, abs_zero]
    norm_num
  rw [format_of_snap hsnap, nearestInteger_intCast]

/-- A number that does not lie within the tolerance of an integer is written with six places. -/
theorem format_of_apart (h : ∀ z : ℤ, 1 / 10 ^ 10 ≤ |v - z|) :
    (finite v).format = Decimal.fixed 6 v := by
  have hzero : ¬v.abs < snap := by
    rw [abs_eq, snap_eq, not_lt]
    simpa using h 0
  have hinteger : ¬(v - nearestInteger v).abs < snap := by
    rw [abs_eq, snap_eq, not_lt]
    exact h _
  rw [format, if_neg hzero, if_neg hinteger]

/-- **A number that is no farther from what is written is printed alike.** -/
theorem format_of_closer (h : 1 / (2 * 10 ^ 6) < |q - nearestInteger q|)
    (hsign : v < 0 ↔ q < 0) (hv : |v - rounded 6 q| ≤ |q - rounded 6 q|) :
    (finite v).format = (finite q).format := by
  have hq (z : ℤ) : 1 / 10 ^ 10 ≤ |q - z| := by
    have := abs_sub_nearestInteger_le q z
    linarith
  have hv' (z : ℤ) : 1 / 10 ^ 10 ≤ |v - z| := by
    have hwritten := rounded_apart h z
    have hdistance := hv.trans (Decimal.abs_sub_rounded_le 6 q)
    have htriangle := abs_sub_le (rounded 6 q) v z
    rw [abs_sub_comm _ v] at htriangle
    linarith
  rw [format_of_apart hq, format_of_apart hv', Decimal.fixed_of_closer hsign hv]

end Reading

/-! ### Reading what a text denotes -/

namespace Binary64

variable {x : Float} {m : ℕ} {e : ℤ} {q v : ℚ} {t : List Char}

/-- A written number that is read. -/
theorem exists_of_denoted? (h : denoted? t = some v) : ∃ negative n p,
    Literal.read t = some (.decimal negative n p) ∧
      v = if negative then -((n : ℚ) * 10 ^ p) else n * 10 ^ p := by
  obtain ⟨l, hl, hv⟩ := Option.bind_eq_some_iff.1 h
  cases l with
  | undefined => simp [Literal.value?] at hv
  | infinite b => simp [Literal.value?] at hv
  | decimal b n p =>
      simp only [Literal.value?, Option.some.injEq] at hv
      exact ⟨b, n, p, hl, hv.symm⟩

theorem readFinite?_eq {l : Literal} {y : Float} (h : Literal.read t = some l)
    (hy : Arithmetic.ofLiteral l = y) (hfinite : reading y = .finite v) :
    Arithmetic.readFinite? t = some y := by
  rw [Arithmetic.readFinite?, h, Option.map_some, hy, Option.filter_some]
  change (if (reading y).isFinite = true then some y else none) = some y
  rw [hfinite]
  rfl

/-- A text that denotes zero is read as zero. -/
theorem exists_reading_of_zero (h : denoted? t = some 0) :
    ∃ y : Float, Arithmetic.readFinite? t = some y ∧ reading y = .finite 0 := by
  obtain ⟨b, n, p, hread, hvalue⟩ := exists_of_denoted? h
  have hpow : (10 : ℚ) ^ p ≠ 0 := by positivity
  obtain rfl : n = 0 := by
    cases b <;> simpa [hpow] using hvalue.symm
  exact ⟨_, readFinite?_eq hread rfl (reading_ofLiteral_zero b p), reading_ofLiteral_zero b p⟩

/-- **A text is read as the number that what it denotes rounds to.** -/
theorem exists_reading_of_rounds (h : denoted? t = some v) (hc : IsCanonical m e)
    (hr : Rounds m e |v|) : ∃ y : Float, Arithmetic.readFinite? t = some y ∧
      reading y = .finite (if v < 0 then -(m * 2 ^ e) else m * 2 ^ e) := by
  obtain ⟨b, n, p, hread, hvalue⟩ := exists_of_denoted? h
  have hnonneg : (0 : ℚ) ≤ n * 10 ^ p := by positivity
  have habs : |v| = n * 10 ^ p := by
    rw [hvalue, abs_signed hnonneg]
  rw [habs] at hr
  have hpos : (0 : ℚ) < n * 10 ^ p := by
    have := hr.le_of_canonical hc
    exact lt_of_lt_of_le (by positivity) this
  have hsign : v < 0 ↔ b = true := by
    rw [hvalue]
    exact signed_neg_iff hpos
  have hreading := reading_ofLiteral hc hr b
  refine ⟨_, readFinite?_eq hread rfl hreading, ?_⟩
  simp only [hreading, hsign]

/-- A finite number is an integer or less than a power of two. -/
theorem integer_or_lt (hx : reading x = .finite q) : (∃ z : ℤ, q = z) ∨ |q| < 2 ^ 52 := by
  rcases exists_canonical_of_reading hx with rfl | ⟨m, e, hc, hq⟩
  · exact .inl ⟨0, Int.cast_zero.symm⟩
  · rcases le_or_gt 0 e with hwhole | hbroken
    · obtain ⟨k, hk⟩ := exists_multiple m hwhole
      rw [zpow_zero, mul_one] at hk
      rw [hk] at hq
      left
      rcases abs_cases q with ⟨habs, -⟩ | ⟨habs, -⟩
      · exact ⟨k, by rw [← habs, hq, Int.cast_natCast]⟩
      · exact ⟨-k, by rw [Int.cast_neg, Int.cast_natCast, ← hq, habs, neg_neg]⟩
    · right
      have hm : (m : ℚ) < 2 ^ 53 := by exact_mod_cast hc.lt
      have hpow : (2 : ℚ) ^ e ≤ 2 ^ (-1 : ℤ) := zpow_le_zpow_right₀ one_le_two (by omega)
      rw [hq]
      calc (m : ℚ) * 2 ^ e ≤ m * 2 ^ (-1 : ℤ) := by gcongr
        _ < 2 ^ 53 * 2 ^ (-1 : ℤ) := by gcongr
        _ = 2 ^ 52 := by norm_num

/-- The integer beside a finite number is zero or a finite number itself. -/
theorem exists_canonical_nearestInteger (hx : reading x = .finite q) (h : nearestInteger q ≠ 0) :
    ∃ m e, IsCanonical m e ∧ |(nearestInteger q : ℚ)| = m * 2 ^ e := by
  rcases integer_or_lt hx with ⟨z, rfl⟩ | hsmall
  · rw [nearestInteger_intCast] at h ⊢
    exact (exists_canonical_of_reading hx).resolve_left fun hz => h (Int.cast_eq_zero.1 hz)
  · have hbeside := abs_sub_nearestInteger_le_half q
    have hlt : |(nearestInteger q : ℚ)| < 2 ^ 53 := by
      have := abs_sub_abs_le_abs_sub (nearestInteger q : ℚ) q
      rw [abs_sub_comm] at this
      linarith
    have hnatural : (((nearestInteger q).natAbs : ℕ) : ℚ) = |(nearestInteger q : ℚ)| := by
      rw [Nat.cast_natAbs, Int.cast_abs]
    rw [← hnatural] at hlt ⊢
    obtain ⟨m, e, hc, hvalue⟩ :=
      exists_canonical_natural (Int.natAbs_pos.2 h) (by exact_mod_cast hlt)
    exact ⟨m, e, hc, hvalue.symm⟩

/-- **The text of the integer beside a finite number is read as this integer.** -/
theorem exists_reading_nearestInteger (hx : reading x = .finite q)
    (h : denoted? t = some (nearestInteger q : ℚ)) :
    ∃ y : Float, Arithmetic.readFinite? t = some y ∧ reading y = .finite (nearestInteger q) := by
  by_cases hzero : nearestInteger q = 0
  · rw [hzero, Int.cast_zero] at h ⊢
    exact exists_reading_of_zero h
  · obtain ⟨m, e, hc, hvalue⟩ := exists_canonical_nearestInteger hx hzero
    have hrounds : Rounds m e |(nearestInteger q : ℚ)| := by
      rw [hvalue]
      exact rounds_self m e
    obtain ⟨y, hread, hy⟩ := exists_reading_of_rounds h hc hrounds
    rw [← hvalue, signed_abs] at hy
    exact ⟨y, hread, hy⟩

/-- The six places of a number far from all integers are rounded to a number. -/
theorem exists_rounds_rounded (hx : reading x = .finite q)
    (hfar : 1 / (2 * 10 ^ 6) < |q - nearestInteger q|) :
    ∃ m e, IsCanonical m e ∧ Rounds m e |rounded 6 q| := by
  have hsmall : |q| < 2 ^ 52 := by
    refine (integer_or_lt hx).resolve_left ?_
    rintro ⟨z, rfl⟩
    rw [nearestInteger_intCast, sub_self, abs_zero] at hfar
    exact absurd hfar (by norm_num)
  have hlow : 1 / 10 ^ 6 ≤ |rounded 6 q| := by
    simpa using Reading.rounded_apart hfar 0
  have hhigh : |rounded 6 q| < 2 ^ 53 := by
    have hdistance := abs_sub_rounded_le 6 q
    have := abs_sub_abs_le_abs_sub (rounded 6 q) q
    rw [abs_sub_comm] at this
    linarith
  apply exists_rounds
  · calc (2 : ℚ) ^ (-1022 : ℤ) ≤ 2 ^ (-20 : ℤ) := zpow_le_zpow_right₀ one_le_two (by omega)
      _ ≤ 1 / 10 ^ 6 := by norm_num
      _ ≤ |rounded 6 q| := hlow
  · calc |rounded 6 q| < 2 ^ (53 : ℤ) := by exact_mod_cast hhigh
      _ ≤ 2 ^ (1023 : ℤ) := zpow_le_zpow_right₀ one_le_two (by omega)

/-- **The text with six places of a number far from all integers is read as a number of its sign
that is no farther from what is written than the number itself.** -/
theorem exists_reading_rounded (hx : reading x = .finite q)
    (hfar : 1 / (2 * 10 ^ 6) < |q - nearestInteger q|) (h : denoted? t = some (rounded 6 q)) :
    ∃ (y : Float) (v : ℚ), Arithmetic.readFinite? t = some y ∧ reading y = .finite v ∧
      (v < 0 ↔ q < 0) ∧ |v - rounded 6 q| ≤ |q - rounded 6 q| := by
  have hne : q ≠ 0 := by
    rintro rfl
    have hzero : nearestInteger 0 = 0 := nearestInteger_intCast 0
    rw [hzero] at hfar
    exact absurd hfar (by norm_num)
  have hwritten : rounded 6 q ≠ 0 := by
    intro hzero
    have := Reading.rounded_apart hfar 0
    rw [hzero] at this
    exact absurd this (by norm_num)
  obtain ⟨M, E, hC, hvalue⟩ := (exists_canonical_of_reading hx).resolve_left hne
  obtain ⟨m, e, hc, hrounds⟩ := exists_rounds_rounded hx hfar
  obtain ⟨y, hread, hy⟩ := exists_reading_of_rounds h hc hrounds
  have hpos : (0 : ℚ) < m * 2 ^ e :=
    mul_pos (by exact_mod_cast hc.pos) (zpow_pos two_pos e)
  have hsign := (signed_neg_iff (P := rounded 6 q < 0) hpos).trans
    (Decimal.rounded_neg_iff hwritten)
  refine ⟨y, _, hread, hy, hsign, ?_⟩
  rw [abs_sub_rounded hsign, abs_sub_rounded Iff.rfl, ← abs_rounded, abs_signed hpos.le, hvalue]
  exact hrounds.nearest hc hC

end Binary64

/-! ### Results that are a bare number -/

section BareNumbers

variable {c : Float} {q : ℚ}

/-- Beside an integer the integer is shown. -/
theorem shown_const_of_near (hc : Number.reading c = .finite q)
    (h : |q - nearestInteger q| ≤ 1 / (2 * 10 ^ 6)) :
    (Expr.const c).shown = (Reading.finite (nearestInteger q : ℚ)).format := by
  have hdenoted := Reading.denoted?_latex q
  rw [Reading.written_of_near h, ← hc] at hdenoted
  obtain ⟨y, hread, hy⟩ := Binary64.exists_reading_nearestInteger hc hdenoted
  rw [Expr.shown, Expr.latex, hread]
  exact congrArg Reading.format hy

/-- Everywhere else the number is shown in the format of numbers. -/
theorem shown_const_of_far (hc : Number.reading c = .finite q)
    (h : 1 / (2 * 10 ^ 6) < |q - nearestInteger q|) :
    (Expr.const c).shown = (Reading.finite q).format := by
  have hdenoted := Reading.denoted?_latex q
  rw [Reading.written_of_far h, ← hc] at hdenoted
  obtain ⟨y, v, hread, hy, hsign, hcloser⟩ := Binary64.exists_reading_rounded hc h hdenoted
  rw [Expr.shown, Expr.latex, hread, ← Reading.format_of_closer h hsign hcloser]
  exact congrArg Reading.format hy

/-- **A bare number among the symbolic results is shown as the integer beside it if this is at most
half a millionth away, and otherwise in the format of numbers.**  So it is shown in the format of
numbers unless its distance from the integer is at least the tolerance of the format and at most
half a millionth. -/
theorem Expr.shown_const (hc : Number.reading c = .finite q) :
    (Expr.const c).shown = (Reading.finite
      (if |q - nearestInteger q| ≤ 1 / (2 * 10 ^ 6) then (nearestInteger q : ℚ) else q)).format ∧
    ((Expr.const c).shown = (Number.reading c).format ↔
      |q - nearestInteger q| < 1 / 10 ^ 10 ∨ 1 / (2 * 10 ^ 6) < |q - nearestInteger q|) := by
  rw [hc]
  rcases le_or_gt |q - nearestInteger q| (1 / (2 * 10 ^ 6)) with hnear | hfar
  · rw [if_pos hnear, shown_const_of_near hc hnear, Reading.format_intCast]
    refine ⟨rfl, fun h => ?_, ?_⟩
    · by_contra hbetween
      push Not at hbetween
      rw [Reading.format_of_apart fun z => hbetween.1.trans (abs_sub_nearestInteger_le q z)] at h
      exact Decimal.fixed_zero_ne_fixed_succ _ _ h
    · rintro (hsnap | hfar)
      · exact (Reading.format_of_snap hsnap).symm
      · exact absurd hnear (not_le.2 hfar)
  · rw [if_neg (not_le.2 hfar)]
    exact ⟨shown_const_of_far hc hfar, fun _ => .inr hfar, fun _ => shown_const_of_far hc hfar⟩

theorem Expr.shown_const_half : Number.reading (2.5 : Float) = .finite (5 / 2) ∧
    (Expr.const (2.5 : Float)).shown = (Number.reading (2.5 : Float)).format := by
  have hreading : Number.reading (2.5 : Float) = .finite (5 / 2) := by decide +kernel
  have hfar : 1 / (2 * 10 ^ 6) < |(5 / 2 : ℚ) - nearestInteger (5 / 2)| := by decide +kernel
  exact ⟨hreading, (Expr.shown_const hreading).2.2 (.inr hfar)⟩

/-- The number is farther from three than the tolerance, but its text in LaTeX is not. -/
theorem Expr.shown_const_besideThree : (Expr.const (3.00000001 : Float)).shown = "3" ∧
    (Number.reading (3.00000001 : Float)).format = "3.000000" := by
  constructor <;> decide +kernel

end BareNumbers

end Reckoner
