/-
**The text of a binary number denotes it.**

The shortest text of a number is found among the multiples of a power of ten that lie in the
neighbourhood of the values rounding to the number.  Whatever such a multiple is, reading it rounds,
and the number comes back.  There always is one: a power of ten below half the distance to the next
number has a multiple between the two, and the search goes down that far.

Main definitions:

* `Reckoner.Binary64.Neighbourhood.multiple?` — the search on one grid, by the fraction it is made of.

Main results:

* `Reckoner.Binary64.rounds_of_contains` — the neighbourhood of a number rounds to it;
* `Reckoner.Binary64.isSome_onGrid?` — a fine grid has a point in the neighbourhood;
* `Reckoner.Binary64.rounds_shortest` — the shortest digits round to the number;
* `Reckoner.Binary64.readsBack` — **the text of a finite number denotes the number**, unless it is
  a negative zero.
-/

import Mathlib.Tactic
import Reckoner.Proofs.DecimalRounding
import Reckoner.Proofs.RoundTrip

set_option autoImplicit false

namespace Reckoner.Binary64

open Float.Model (UnpackedFloat)
open Notation (Numeral)

variable {m n num den : ℕ} {q e : ℤ} {v : Neighbourhood}

/-! ### The neighbourhood -/

theorem contains_iff (hv : 0 < v.den) (hden : 0 < den) : v.contains num den = true ↔
    if v.closed then (v.low / v.den : ℚ) ≤ num / den ∧ (num / den : ℚ) ≤ v.high / v.den
    else (v.low / v.den : ℚ) < num / den ∧ (num / den : ℚ) < v.high / v.den := by
  have hv : (0 : ℚ) < v.den := by exact_mod_cast hv
  have hden : (0 : ℚ) < den := by exact_mod_cast hden
  rw [Neighbourhood.contains]
  split <;> simp only [Bool.and_eq_true, decide_eq_true_eq, div_le_div_iff₀ hv hden,
    div_le_div_iff₀ hden hv, div_lt_div_iff₀ hv hden, div_lt_div_iff₀ hden hv] <;> norm_cast

/-- The neighbourhood is measured in quarters of a unit. -/
theorem neighbourhood_eq (m : ℕ) (q : ℤ) : ∃ up down : ℕ, 0 < down ∧
    (up / down : ℚ) = 1 / 4 * 2 ^ q ∧ neighbourhood m q =
      { low := (4 * m - if m = 2 ^ 52 ∧ q ≠ -1074 then 1 else 2) * up
        centre := 4 * m * up
        high := (4 * m + 2) * up
        den := down
        closed := m % 2 = 0 } := by
  have hquarter : (2 : ℚ) ^ (q - 2) = 1 / 4 * 2 ^ q := by
    rw [zpow_sub₀ two_ne_zero]
    ring
  cases h : q - 2 with
  | ofNat k =>
      refine ⟨2 ^ k, 1, one_pos, ?_, ?_⟩
      · rw [← hquarter, h]
        simp
      · rw [neighbourhood, h]
        rfl
  | negSucc k =>
      refine ⟨1, 2 ^ (k + 1), by positivity, ?_, ?_⟩
      · rw [← hquarter, h, zpow_negSucc]
        simp
      · rw [neighbourhood, h]
        rfl

theorem den_neighbourhood (m : ℕ) (q : ℤ) : 0 < (neighbourhood m q).den := by
  obtain ⟨up, down, hdown, hvalue, heq⟩ := neighbourhood_eq m q
  rw [heq]
  exact hdown

theorem low_neighbourhood (hm : 0 < m) : ((neighbourhood m q).low / (neighbourhood m q).den : ℚ) =
    (m - if m = 2 ^ 52 ∧ q ≠ -1074 then 1 / 4 else 1 / 2) * 2 ^ q := by
  obtain ⟨up, down, hdown, hvalue, heq⟩ := neighbourhood_eq m q
  rw [heq]
  split
  all_goals
    rw [Nat.cast_mul, mul_div_assoc, hvalue, Nat.cast_sub (by omega)]
    push_cast
    ring

theorem centre_neighbourhood (m : ℕ) (q : ℤ) :
    ((neighbourhood m q).centre / (neighbourhood m q).den : ℚ) = m * 2 ^ q := by
  obtain ⟨up, down, hdown, hvalue, heq⟩ := neighbourhood_eq m q
  rw [heq, Nat.cast_mul, mul_div_assoc, hvalue]
  push_cast
  ring

theorem high_neighbourhood (m : ℕ) (q : ℤ) :
    ((neighbourhood m q).high / (neighbourhood m q).den : ℚ) = (m + 1 / 2) * 2 ^ q := by
  obtain ⟨up, down, hdown, hvalue, heq⟩ := neighbourhood_eq m q
  rw [heq, Nat.cast_mul, mul_div_assoc, hvalue]
  push_cast
  ring

theorem closed_neighbourhood : (neighbourhood m q).closed = true ↔ m % 2 = 0 :=
  decide_eq_true_iff

/-- The neighbourhood of a number rounds to it. -/
theorem rounds_of_contains (hm : 0 < m) (hden : 0 < den)
    (h : (neighbourhood m q).contains num den = true) : Rounds m q (num / den) := by
  have hpow : (0 : ℚ) < 2 ^ q := by positivity
  rw [contains_iff (den_neighbourhood m q) hden, low_neighbourhood hm, high_neighbourhood] at h
  have hhalf : (m - 1 / 2 : ℚ) * 2 ^ q ≤
      (m - if m = 2 ^ 52 ∧ q ≠ -1074 then 1 / 4 else 1 / 2) * 2 ^ q := by
    split <;> linarith
  have hweak : (m - if m = 2 ^ 52 ∧ q ≠ -1074 then 1 / 4 else 1 / 2 : ℚ) * 2 ^ q ≤ num / den ∧
      (num / den : ℚ) ≤ (m + 1 / 2) * 2 ^ q := by
    split at h
    · exact h
    · exact ⟨h.1.le, h.2.le⟩
  refine ⟨hhalf.trans hweak.1, hweak.2, fun hodd => ?_, fun hedge hq => ?_⟩
  · rw [if_neg (by rw [closed_neighbourhood]; omega)] at h
    exact ⟨hhalf.trans_lt h.1, h.2⟩
  · rw [if_pos ⟨hedge, hq⟩] at hweak
    exact hweak.1

/-- The neighbourhood reaches half a unit above the number. -/
theorem contains_of_lt (hm : 0 < m) (hden : 0 < den) (hlow : (m : ℚ) * 2 ^ q < num / den)
    (hhigh : (num / den : ℚ) < (m + 1 / 2) * 2 ^ q) :
    (neighbourhood m q).contains num den = true := by
  have hpow : (0 : ℚ) < 2 ^ q := by positivity
  have hlow : (m - if m = 2 ^ 52 ∧ q ≠ -1074 then 1 / 4 else 1 / 2 : ℚ) * 2 ^ q < num / den := by
    split <;> linarith
  rw [contains_iff (den_neighbourhood m q) hden, low_neighbourhood hm, high_neighbourhood]
  split
  · exact ⟨hlow.le, hhigh.le⟩
  · exact ⟨hlow, hhigh⟩

/-! ### Grids -/

/-- The multiple of a positive fraction that lies in a neighbourhood, nearest to its centre. -/
def Neighbourhood.multiple? (v : Neighbourhood) (up down : ℕ) : Option ℕ :=
  let below := v.centre * down / (v.den * up)
  let rest := v.centre * down % (v.den * up)
  let lower := 0 < below && v.contains (below * up) down
  let upper := v.contains ((below + 1) * up) down
  if lower && upper then some (if 2 * rest < v.den * up then below else below + 1)
  else if lower then some below
  else if upper then some (below + 1)
  else none

theorem onGrid?_eq (v : Neighbourhood) (e : ℤ) : ∃ up down : ℕ, 0 < up ∧ 0 < down ∧
    (up / down : ℚ) = 10 ^ e ∧ v.onGrid? e = v.multiple? up down := by
  cases e with
  | ofNat k => exact ⟨10 ^ k, 1, by positivity, one_pos, by simp, rfl⟩
  | negSucc k =>
      refine ⟨1, 10 ^ (k + 1), one_pos, by positivity, ?_, rfl⟩
      rw [zpow_negSucc]
      simp

theorem contains_of_multiple? {up down : ℕ} (h : v.multiple? up down = some n) :
    v.contains (n * up) down = true := by
  unfold Neighbourhood.multiple? at h
  generalize v.centre * down / (v.den * up) = below at h
  simp only [Bool.and_eq_true, decide_eq_true_eq] at h
  split at h
  case isTrue hboth =>
    obtain ⟨⟨-, hlower⟩, hupper⟩ := hboth
    split at h
    · exact Option.some.inj h ▸ hlower
    · exact Option.some.inj h ▸ hupper
  case isFalse =>
    split at h
    case isTrue hlower => exact Option.some.inj h ▸ hlower.2
    case isFalse =>
      split at h
      case isTrue hupper => exact Option.some.inj h ▸ hupper
      case isFalse => cases h

/-- The multiple next above the centre is not missed. -/
theorem isSome_multiple? {up down : ℕ}
    (h : v.contains ((v.centre * down / (v.den * up) + 1) * up) down = true) :
    (v.multiple? up down).isSome = true := by
  unfold Neighbourhood.multiple?
  simp only [h]
  split
  · rfl
  · split <;> simp

/-- A point of a grid in the neighbourhood rounds to the number. -/
theorem rounds_of_onGrid? (hm : 0 < m) (h : (neighbourhood m q).onGrid? e = some n) :
    Rounds m q (n * 10 ^ e) := by
  obtain ⟨up, down, -, hdown, hpower, heq⟩ := onGrid?_eq (neighbourhood m q) e
  rw [heq] at h
  have hround := rounds_of_contains hm hdown (contains_of_multiple? h)
  rwa [Nat.cast_mul, mul_div_assoc, hpower] at hround

/-- **A grid finer than half a unit has a point in the neighbourhood**, the next above the
centre. -/
theorem isSome_onGrid? (hm : 0 < m) (hfine : (10 : ℚ) ^ e < 1 / 2 * 2 ^ q) :
    ((neighbourhood m q).onGrid? e).isSome = true := by
  obtain ⟨up, down, hup, hdown, hpower, heq⟩ := onGrid?_eq (neighbourhood m q) e
  have hcentre := centre_neighbourhood m q
  have hden := den_neighbourhood m q
  have hden' : (0 : ℚ) < (neighbourhood m q).den := by exact_mod_cast hden
  have hdown' : (0 : ℚ) < down := by exact_mod_cast hdown
  -- The two multiples around the centre.
  obtain ⟨below, hb⟩ : ∃ below, below = (neighbourhood m q).centre * down /
    ((neighbourhood m q).den * up) := ⟨_, rfl⟩
  have hbelow : (below : ℚ) * 10 ^ e ≤ m * 2 ^ q := by
    have hle := Nat.div_mul_le_self ((neighbourhood m q).centre * down)
      ((neighbourhood m q).den * up)
    rw [← hb] at hle
    rw [← hpower, ← hcentre, ← mul_div_assoc, div_le_div_iff₀ hdown' hden']
    norm_cast
    linarith
  have habove : (m * 2 ^ q : ℚ) < (below + 1) * 10 ^ e := by
    have hlt := Nat.lt_div_mul_add (a := (neighbourhood m q).centre * down)
      (b := (neighbourhood m q).den * up) (by positivity)
    rw [← hb] at hlt
    rw [← hpower, ← hcentre, ← mul_div_assoc, div_lt_div_iff₀ hden' hdown']
    norm_cast
    linarith
  have hnext : (((below + 1) * up : ℕ) : ℚ) / down = (below + 1) * 10 ^ e := by
    rw [Nat.cast_mul, mul_div_assoc, hpower, Nat.cast_succ]
  rw [heq]
  refine isSome_multiple? ?_
  rw [← hb]
  refine contains_of_lt hm hdown ?_ ?_
  · rwa [hnext]
  · rw [hnext]
    linarith

/-! ### The search -/

/-- The search starts high enough above a number to end below half a unit of it. -/
theorem fine_start : (List.range 2046).all fun i =>
    let q : ℤ := i - 1074
    let e : ℤ := ((53 + q) * 30103).fdiv 100000 + 2 - 20
    10 ^ e.toNat * 2 ^ (-(q - 1)).toNat < 2 ^ (q - 1).toNat * 10 ^ (-e).toNat := by
  decide +kernel

/-- The last grid of the search is finer than half a unit. -/
theorem last_grid_lt (hc : IsCanonical m q) :
    (10 : ℚ) ^ (((m.log2 + 1 + q) * 30103).fdiv 100000 + 2 - 20) < 1 / 2 * 2 ^ q := by
  obtain ⟨e, he⟩ : ∃ e : ℤ, e = ((53 + q) * 30103).fdiv 100000 + 2 - 20 := ⟨_, rfl⟩
  have hmono : ((m.log2 + 1 + q) * 30103).fdiv 100000 + 2 - 20 ≤ e := by
    have := hc.log2_le
    rw [he, Int.fdiv_eq_ediv_of_nonneg _ (by omega), Int.fdiv_eq_ediv_of_nonneg _ (by omega)]
    omega
  have hlast : (10 : ℚ) ^ e.toNat * 2 ^ (-(q - 1)).toNat < 2 ^ (q - 1).toNat * 10 ^ (-e).toNat := by
    have hq : ((q + 1074).toNat : ℤ) - 1074 = q := by
      have := hc.least
      omega
    have hi := List.all_eq_true.1 fine_start (q + 1074).toNat (List.mem_range.2 (by
      have := hc.most
      omega))
    simp only [hq, ← he, decide_eq_true_eq] at hi
    exact_mod_cast hi
  have hgrid : (10 : ℚ) ^ e < 2 ^ (q - 1) := by
    rw [pow_toNat two_ne_zero (q - 1), pow_toNat (by norm_num : (10 : ℚ) ≠ 0) e] at hlast
    refine lt_of_mul_lt_mul_right (a := (10 : ℚ) ^ (-e).toNat * 2 ^ (-(q - 1)).toNat) ?_
      (by positivity)
    linarith
  calc (10 : ℚ) ^ (((m.log2 + 1 + q) * 30103).fdiv 100000 + 2 - 20) ≤ 10 ^ e :=
        zpow_le_zpow_right₀ (by norm_num) hmono
    _ < 2 ^ (q - 1) := hgrid
    _ = 1 / 2 * 2 ^ q := by
        rw [zpow_sub_one₀ two_ne_zero]
        ring

/-- The shortest digits are a point of some grid. -/
theorem onGrid?_shortest (hc : IsCanonical m q) :
    (neighbourhood m q).onGrid? (shortest m q).2 = some (shortest m q).1 := by
  obtain ⟨start, hstart⟩ : ∃ start, start = ((m.log2 + 1 + q) * 30103).fdiv 100000 + 2 := ⟨_, rfl⟩
  obtain ⟨n, hn⟩ := Option.isSome_iff_exists.1 (isSome_onGrid? hc.pos (last_grid_lt hc))
  rw [shortest, ← hstart]
  cases hfound : ((List.range 21).map fun i => start - (i : ℕ)).findSome?
      fun e => ((neighbourhood m q).onGrid? e).map (·, e) with
  | none =>
      have hlast := List.findSome?_eq_none_iff.1 hfound (start - 20)
        (List.mem_map.2 ⟨20, by simp, rfl⟩)
      rw [hstart, hn] at hlast
      cases hlast
  | some found =>
      obtain ⟨e, -, he⟩ := List.exists_of_findSome?_eq_some hfound
      obtain ⟨n, hn, rfl⟩ := Option.map_eq_some_iff.1 he
      exact hn

/-- **The shortest digits round to the number.** -/
theorem rounds_shortest (hc : IsCanonical m q) :
    Rounds m q ((shortest m q).1 * 10 ^ (shortest m q).2) :=
  rounds_of_onGrid? hc.pos (onGrid?_shortest hc)

/-! ### Reading back -/

/-- The text of a positive number, read as a number. -/
theorem exists_numeral_plain (hc : IsCanonical m q) : ∃ n p,
    Numeral (Decimal.plain (shortest m q).1 (shortest m q).2) n p ∧
      ofDecimal n p = Float.ofModel (Float.Model.pack (.finite .positive m q hc.pos)) := by
  obtain ⟨n, p, hn, hvalue⟩ := Decimal.numeral_plain (shortest m q).1 (shortest m q).2
  exact ⟨n, p, hn, ofDecimal_eq hc (hvalue ▸ rounds_shortest hc)⟩

/-- **The text of a finite number denotes the number**, unless it is a negative zero. -/
theorem readsBack {x : Float} (hfinite : Arithmetic.isFinite x = true)
    (hzero : isNegativeZero x = false) : ReadsBack x := by
  change (reading x).isFinite = true at hfinite
  cases hx : x.toModel.unpack with
  | notANumber => simp [reading, hx, Reading.isFinite, Reading.value?] at hfinite
  | infinity s => simp [reading, hx, Reading.isFinite, Reading.value?] at hfinite
  | zero s =>
      cases s with
      | positive =>
          have hback := pack_unpack x
          rw [hx] at hback
          subst hback
          unfold ReadsBack
          decide
      | negative => simp [isNegativeZero, hx] at hzero
  | finite s m q hm =>
      have hc := isCanonical_of_unpack hx
      obtain ⟨n, p, hn, hvalue⟩ := exists_numeral_plain hc
      have hback : Float.ofModel (Float.Model.pack (.finite s m q hm)) = x := by
        rw [← hx, pack_unpack]
      cases s with
      | positive =>
          have htext : (text x).toList = Decimal.plain (shortest m q).1 (shortest m q).2 := by
            rw [text, hx]
            exact String.toList_ofList
          change (Literal.read (text x).toList).map Arithmetic.ofLiteral = some x
          rw [htext, hn.read]
          exact congrArg some (hvalue.trans hback)
      | negative =>
          have htext : (text x).toList =
              '-' :: Decimal.plain (shortest m q).1 (shortest m q).2 := by
            rw [text, hx]
            exact String.toList_ofList
          change (Literal.read (text x).toList).map Arithmetic.ofLiteral = some x
          rw [htext, hn.read_minus]
          change some (-(ofDecimal n p)) = some x
          rw [hvalue]
          change some (Float.ofModel (Float.Model.pack (UnpackedFloat.neg
            (Float.Model.pack (.finite .positive m q hm)).unpack))) = some x
          rw [unpack_pack hc]
          exact congrArg some hback

end Reckoner.Binary64
