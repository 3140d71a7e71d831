/-
**The texts of rounded numbers.**

A number in a LaTeX result is an integer, or a number of six places without the zeros at its end.
Both are numbers of the grammar, so that the text denotes one number exactly, whatever arithmetic
reads it: the integer beside the number, or the number of six places that it is rounded to.

Main definitions:

* `Reckoner.Decimal.denoted?` — the number that a text denotes, exactly;
* `Reckoner.Reading.written` — the number that is written in LaTeX.

Main results:

* `Reckoner.Decimal.numeral_trimmed` — **without the zeros at its end a number keeps its value**;
* `Reckoner.Decimal.fixed_zero_ne_fixed_succ` — a number with places is not written as an integer;
* `Reckoner.Reading.denoted?_latex` — **the LaTeX of a number denotes the number that is written**.
-/

import Mathlib.Data.List.DropRight
import Reckoner.Proofs.LatexReading
import Reckoner.Proofs.PrintedReals
import Reckoner.Proofs.RoundTrip

set_option autoImplicit false

namespace Reckoner

open Notation (Numeral)

namespace Decimal

variable {c d : Char} {s t : List Char} {k places : ℕ}

/-! ### Characters at the end -/

theorem dropTrailing_append_cons (hd : d ≠ c) (s t : List Char) :
    dropTrailing c (s ++ d :: t) = s ++ d :: dropTrailing c t := by
  have hhead : (d :: s.reverse).dropWhile (· == c) = d :: s.reverse := by simp [hd]
  simp only [dropTrailing, List.reverse_append, List.reverse_cons, List.append_assoc,
    List.singleton_append, List.dropWhile_append, hhead]
  split
  · rename_i hnil
    rw [List.isEmpty_iff.1 hnil]
    simp
  · simp

/-- A text is what is left of it without the zeros at the end, with these. -/
theorem exists_zeros (t : List Char) : ∃ z, t = dropTrailing '0' t ++ List.replicate z '0' := by
  refine ⟨(t.rtakeWhile (· == '0')).length, ?_⟩
  have hzeros : t.rtakeWhile (· == '0') =
      List.replicate (t.rtakeWhile (· == '0')).length '0' := by
    refine List.eq_replicate_of_mem fun c hc => ?_
    simpa using List.mem_rtakeWhile_imp hc
  conv_lhs => rw [← List.rdropWhile_append_rtakeWhile (p := (· == '0')) (l := t)]
  rw [← hzeros]
  rfl

theorem dropTrailing_eq_self (h : ∀ d ∈ t, d ≠ c) : dropTrailing c t = t := by
  refine List.rdropWhile_eq_self_iff.2 fun hne => ?_
  simpa using h _ (List.getLast_mem hne)

/-- Digits with a point lose the point if nothing is behind it. -/
theorem dropTrailing_point (hs : ∀ d ∈ s, d.isDigit = true) (ht : ∀ d ∈ t, d.isDigit = true) :
    dropTrailing '.' (s ++ '.' :: t) = if t = [] then s else s ++ '.' :: t := by
  have hpoint {d : Char} (hd : d.isDigit = true) : d ≠ '.' := by
    rintro rfl
    exact absurd hd (by decide)
  rcases List.eq_nil_or_concat t with rfl | ⟨t, d, rfl⟩
  · rw [if_pos rfl]
    exact (List.rdropWhile_concat_pos _ _ _ (by decide)).trans
      (dropTrailing_eq_self fun d hd => hpoint (hs d hd))
  · have hd : d ≠ '.' := hpoint (ht d (by simp))
    have hlast := dropTrailing_append_cons hd (s ++ '.' :: t) []
    rw [if_neg (by simp)]
    simpa [dropTrailing] using hlast

/-- A number with places is written with a point. -/
theorem point_mem_fixed (places : ℕ) (q : ℚ) : '.' ∈ (fixed (places + 1) q).toList := by
  have hpointed : '.' ∈ pointed (places + 1) (units (places + 1) q) :=
    List.mem_append_right _ List.mem_cons_self
  rw [fixed_eq, String.toList_ofList]
  split
  · exact List.mem_cons_of_mem _ hpointed
  · exact hpointed

/-- A number with places is no integer as it is written. -/
theorem fixed_zero_ne_fixed_succ (n : ℤ) (q : ℚ) : fixed 0 n ≠ fixed (places + 1) q := by
  intro h
  have hpoint := point_mem_fixed places q
  rw [← h, Expr.fixed_zero_intCast, String.toList_ofList] at hpoint
  have hdigit : '.' ∈ digits n.natAbs := by
    split at hpoint
    · exact List.mem_of_ne_of_mem (by decide) hpoint
    · exact hpoint
  exact absurd (isDigit_of_mem_digits hdigit) (by decide)

/-- A number with places is written as digits in front of the point and as many digits behind it as
it has places. -/
theorem pointed_succ (places k : ℕ) : ∃ w f, pointed (places + 1) k = w ++ '.' :: f ∧ w ≠ [] ∧
    (∀ d ∈ w, d.isDigit = true) ∧ (∀ d ∈ f, d.isDigit = true) ∧ f.length = places + 1 ∧
      Literal.natural (w ++ f) = k := by
  obtain ⟨w, hw⟩ : ∃ w, w = digits (k / 10 ^ (places + 1)) := ⟨_, rfl⟩
  obtain ⟨f, hf⟩ : ∃ f, f = padded (places + 1) (digits (k % 10 ^ (places + 1))) := ⟨_, rfl⟩
  have hlength : f.length = places + 1 := by
    rw [hf]
    exact length_padded (Nat.succ_pos places) (Nat.mod_lt _ (by positivity))
  refine ⟨w, f, ?_, ?_, ?_, ?_, hlength, ?_⟩
  · rw [hw, hf]
    rfl
  · rw [hw]
    exact Nat.toDigits_ne_nil
  · rw [hw]
    exact fun d hd => isDigit_of_mem_digits hd
  · rw [hf]
    exact fun d hd => isDigit_of_mem_padded hd
  · rw [natural_append, hlength, hw, hf, natural_padded, natural_digits, Nat.div_add_mod]

/-- A number with places is a number of the grammar and has its value. -/
theorem numeral_pointed (places k : ℕ) : ∃ n p, Numeral (pointed (places + 1) k) n p ∧
    (n : ℚ) * 10 ^ p = k / 10 ^ (places + 1) := by
  obtain ⟨w, f, hpointed, hw0, hw, hf, hlength, hvalue⟩ := pointed_succ places k
  rw [hpointed]
  refine ⟨_, _, .pointed (by simp [hw0]) hw hf, ?_⟩
  rw [hvalue, hlength, zpow_neg, zpow_natCast, div_eq_mul_inv]

/-- Without the zeros behind the point, and without the point if nothing else is behind it, a number
is a number of the grammar and has the same value. -/
theorem numeral_trimmed (places k : ℕ) : ∃ n p,
    Numeral (dropTrailing '.' (dropTrailing '0' (pointed (places + 1) k))) n p ∧
      (n : ℚ) * 10 ^ p = k / 10 ^ (places + 1) := by
  obtain ⟨w, f, hpointed, hw0, hwdigits, hfdigits, hlength, hvalue⟩ := pointed_succ places k
  -- the digits behind the point are the ones that stay and the zeros that go
  obtain ⟨z, hzeros⟩ := exists_zeros f
  rw [hpointed, dropTrailing_append_cons (by decide)]
  generalize dropTrailing '0' f = g at hzeros ⊢
  subst hzeros
  rw [List.length_append, List.length_replicate] at hlength
  rw [← List.append_assoc, natural_append, natural_zeros, List.length_replicate,
    Nat.add_zero] at hvalue
  have hgdigits : ∀ d ∈ g, d.isDigit = true := fun d hd => hfdigits d (List.mem_append_left _ hd)
  have hquotient : (k : ℚ) / 10 ^ (places + 1) =
      Literal.natural (w ++ g) * 10 ^ (-(g.length : ℤ)) := by
    rw [← hvalue, ← hlength, pow_add, zpow_neg, zpow_natCast]
    push_cast
    field_simp
  rw [dropTrailing_point hwdigits hgdigits, hquotient]
  split
  · rename_i hnil
    subst hnil
    refine ⟨_, _, .whole hw0 hwdigits, ?_⟩
    simp
  · exact ⟨_, _, .pointed (by simp [hw0]) hwdigits hgdigits, rfl⟩

end Decimal

/-! ### What a text denotes -/

/-- The exact value of a number as it is written. -/
def Literal.value? : Literal → Option ℚ
  | .decimal negative n p => some (if negative then -(n * 10 ^ p) else n * 10 ^ p)
  | _ => none

namespace Decimal

variable {t : List Char} {n : ℕ} {p : ℤ}

/-- The number that a decimal text denotes, exactly. -/
def denoted? (t : List Char) : Option ℚ := Literal.read t >>= Literal.value?

/-- A number of the grammar, with a minus in front or without. -/
theorem denoted?_signed (h : Numeral t n p) {P : Prop} [Decidable P] :
    denoted? (if P then '-' :: t else t) = some (if P then -(n * 10 ^ p : ℚ) else n * 10 ^ p) := by
  split
  · rw [denoted?, h.read_minus]
    rfl
  · rw [denoted?, h.read]
    rfl

/-- **The text of a number with places denotes the number that is written.** -/
theorem denoted?_fixed (places : ℕ) (q : ℚ) :
    denoted? (fixed (places + 1) q).toList = some (rounded (places + 1) q) := by
  obtain ⟨n, p, hn, hvalue⟩ := numeral_pointed places (units (places + 1) q)
  rw [fixed_eq, String.toList_ofList, denoted?_signed hn, hvalue]
  rfl

/-- The text of an integer denotes it. -/
theorem denoted?_integer (n : ℤ) : denoted? (fixed 0 n).toList = some (n : ℚ) := by
  have hdigits := Numeral.whole (w := digits n.natAbs) Nat.toDigits_ne_nil
    fun d hd => isDigit_of_mem_digits hd
  have hnatural : (Literal.natural (digits n.natAbs) : ℚ) * 10 ^ (0 : ℤ) = |(n : ℚ)| := by
    rw [natural_digits, zpow_zero, mul_one, Nat.cast_natAbs, Int.cast_abs]
  have hsign : n < 0 ↔ (n : ℚ) < 0 := Int.cast_lt_zero.symm
  simp only [Expr.fixed_zero_intCast, String.toList_ofList, hsign]
  rw [denoted?_signed hdigits, hnatural, signed_abs]

end Decimal

/-! ### Numbers in LaTeX -/

namespace Reading

open Decimal (denoted? dropTrailing)

variable {q : ℚ}

/-- The number that is written in LaTeX: the integer beside it, or the number of six places that it
is rounded to. -/
def written (q : ℚ) : ℚ :=
  if (q - nearestInteger q).abs < snap then nearestInteger q else Decimal.rounded 6 q

/-- **The LaTeX of a number denotes the number that is written.** -/
theorem denoted?_latex (q : ℚ) : denoted? (finite q).latex.toList = some (written q) := by
  unfold written
  rw [latex]
  split
  · exact Decimal.denoted?_integer _
  · obtain ⟨n, p, hn, hvalue⟩ := Decimal.numeral_trimmed 5 (Decimal.units 6 q)
    obtain ⟨t, ht⟩ : ∃ t, t =
      dropTrailing '.' (dropTrailing '0' (Decimal.pointed 6 (Decimal.units 6 q))) := ⟨_, rfl⟩
    rw [← ht] at hn
    -- the minus in front is none of the characters that are dropped at the end
    have htrimmed : dropTrailing '.' (dropTrailing '0' (Decimal.fixed 6 q).toList) =
        if q < 0 then '-' :: t else t := by
      have hzero (s : List Char) : dropTrailing '0' ('-' :: s) = '-' :: dropTrailing '0' s :=
        Decimal.dropTrailing_append_cons (by decide) [] s
      have hpoint (s : List Char) : dropTrailing '.' ('-' :: s) = '-' :: dropTrailing '.' s :=
        Decimal.dropTrailing_append_cons (by decide) [] s
      rw [Decimal.fixed_eq, String.toList_ofList, ht]
      split
      · rw [hzero, hpoint]
      · rfl
    have hdenoted : denoted? (if q < 0 then '-' :: t else t) = some (Decimal.rounded 6 q) := by
      rw [Decimal.denoted?_signed hn, hvalue]
      rfl
    rw [htrimmed]
    generalize (if q < 0 then '-' :: t else t) = cs at hdenoted
    dsimp only
    split
    · rename_i hminus
      -- the minus of a zero is left out
      rw [beq_iff_eq, ← String.ofList_toList (s := "-0"), String.ofList_inj] at hminus
      rw [hminus] at hdenoted
      have hzero : Literal.read "0".toList = some (.decimal false 0 0) := rfl
      have hnegative : Literal.read "-0".toList = some (.decimal true 0 0) := rfl
      rw [← hdenoted, denoted?, denoted?, hzero, hnegative]
      simp [Literal.value?]
    · rw [String.toList_ofList, hdenoted]

end Reading

end Reckoner
