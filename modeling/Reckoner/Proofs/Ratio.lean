/-
**The rationals as numbers of the calculator.**

Exact numbers exist: the rationals, with a text that tells any two of them apart, satisfy the
laws.  They are the numbers on which statements about exact arithmetic are tried out.

Main definitions:

* `Reckoner.Ratio` — rational numbers of the calculator;
* `Reckoner.Ratio.digits` — the text of a rational without its sign;
* `Reckoner.Ratio.functions` — the elementary functions where they are known to be integers.

Main results:

* `Reckoner.Ratio.digits_inj` — the text of a rational determines it up to its sign;
* the instance `Reckoner.ExactNumber Reckoner.Ratio`;
* `Reckoner.Ratio.foldsExactly` — the functions are folded exactly.
-/

import Reckoner.Proofs.Characters
import Reckoner.Proofs.Meaning

set_option autoImplicit false

namespace Reckoner

/-- A rational number of the calculator. -/
structure Ratio where
  /-- The number. -/
  rational : ℚ
deriving DecidableEq

namespace Ratio

/-- The text of a rational without its sign: the numerator, and behind a point the denominator
unless that is one. -/
def digits (q : ℚ) : List Char :=
  Decimal.digits q.num.natAbs ++ if q.den = 1 then [] else '.' :: Decimal.digits q.den

/-- The integer values of elementary functions that are known here. -/
def integerValue? (f : Elementary) (q : ℚ) : Option ℤ :=
  match f with
  | .abs => if q.den = 1 then some |q.num| else none
  | .sqrt => if q = (q.num.natAbs.sqrt : ℚ) ^ 2 then some q.num.natAbs.sqrt else none
  | _ => none

/-- The elementary functions, defined where they have a known integer value. -/
def functions (f : Elementary) (q : ℚ) : Option ℚ := (integerValue? f q).map (↑)

/-- The rationals with a text for each.  A function without a known integer value gives one half,
which no rule takes for an integer, and the named constants are convergents of theirs. -/
instance : Number Ratio where
  add c d := ⟨c.rational + d.rational⟩
  sub c d := ⟨c.rational - d.rational⟩
  mul c d := ⟨c.rational * d.rational⟩
  div c d := ⟨c.rational / d.rational⟩
  neg c := ⟨-c.rational⟩
  ofInt n := ⟨n⟩
  ofDecimal n p := ⟨n * 10 ^ p⟩
  undefined := ⟨0⟩
  infinity := ⟨0⟩
  pi := ⟨355 / 113⟩
  euler := ⟨193 / 71⟩
  ln10 := ⟨175 / 76⟩
  pow c d := ⟨c.rational ^ d.rational.num⟩
  apply f c := ⟨(functions f c.rational).getD (1 / 2)⟩
  same c d := c.rational = d.rational
  less c d := c.rational < d.rational
  isFinite _ := true
  nearest c := nearestInteger c.rational
  reading c := .finite c.rational
  text c := String.ofList
    (if c.rational < 0 then '-' :: digits c.rational else digits c.rational)

@[simp] theorem value_eq (c : Ratio) : Number.value c = c.rational := rfl

/-! ### Texts -/

theorem decimal_digits_injective : Function.Injective Decimal.digits := by
  intro m n h
  simpa [Decimal.digits] using congrArg (Nat.ofDigitChars 10 · 0) h

theorem isDigitRun_digits (q : ℚ) : IsDigitRun (digits q) := by
  constructor
  · simp [digits, Decimal.digits]
  · intro d hd
    rcases List.mem_append.1 hd with hd | hd
    · exact .inl (Decimal.isDigit_of_mem_digits hd)
    · split at hd
      · simp at hd
      · rcases List.mem_cons.1 hd with rfl | hd
        · exact .inr rfl
        · exact .inl (Decimal.isDigit_of_mem_digits hd)

/-- The text of a rational falls apart at its point. -/
theorem digits_span (q : ℚ) :
    (digits q).span Char.isDigit =
      (Decimal.digits q.num.natAbs, if q.den = 1 then [] else '.' :: Decimal.digits q.den) := by
  have whole : ∀ d ∈ Decimal.digits q.num.natAbs, d.isDigit = true :=
    fun d hd => Decimal.isDigit_of_mem_digits hd
  rw [List.span_eq_takeWhile_dropWhile, digits, List.takeWhile_append_of_pos whole,
    List.dropWhile_append_of_pos whole]
  split <;> simp

/-- **The text of a rational determines it up to its sign.** -/
theorem digits_inj {q r : ℚ} (h : digits q = digits r) : |q| = |r| := by
  have spans := congrArg (List.span Char.isDigit) h
  rw [digits_span, digits_span, Prod.mk.injEq] at spans
  obtain ⟨num, den⟩ := spans
  have hnum : q.num.natAbs = r.num.natAbs := decimal_digits_injective num
  have hden : q.den = r.den := by
    split at den <;> split at den
    · simp_all
    · simp at den
    · simp at den
    · exact decimal_digits_injective (List.cons.inj den).2
  rw [Rat.abs_def, Rat.abs_def, hnum, hden]

theorem text_toList (c : Ratio) : (Number.text c).toList =
    if c.rational < 0 then '-' :: digits c.rational else digits c.rational :=
  String.toList_ofList

theorem head_digits_ne_minus (q : ℚ) (ds : List Char) : digits q ≠ '-' :: ds := by
  intro h
  rcases (isDigitRun_digits q).2 '-' (by rw [h]; exact List.mem_cons_self) with h | h <;>
    simp at h

theorem text_injective : Function.Injective (Number.text (κ := Ratio)) := by
  intro c d h
  have lists := congrArg String.toList h
  rw [text_toList, text_toList] at lists
  have key : c.rational = d.rational := by
    split at lists <;> split at lists
    · rename_i hc hd
      have := digits_inj (List.cons.inj lists).2
      rwa [abs_of_neg hc, abs_of_neg hd, neg_inj] at this
    · exact absurd lists.symm (head_digits_ne_minus _ _)
    · exact absurd lists (head_digits_ne_minus _ _)
    · rename_i hc hd
      have := digits_inj lists
      rwa [abs_of_nonneg (not_lt.1 hc), abs_of_nonneg (not_lt.1 hd)] at this
  cases c
  cases d
  simp_all

/-! ### The laws -/

instance : ExactNumber Ratio where
  reading_eq _ := rfl
  value_injective := by rintro ⟨q⟩ ⟨r⟩ h; simpa using h
  value_ofInt _ := rfl
  value_ofDecimal _ _ := rfl
  value_add _ _ := rfl
  value_sub _ _ := rfl
  value_mul _ _ := rfl
  value_neg _ := rfl
  value_div _ _ _ := rfl
  value_pow c d n hd _ := by
    change c.rational ^ d.rational.num = c.rational ^ n
    rw [show d.rational = n from hd, Rat.num_intCast]
  same_iff c d := by simp [Arithmetic.same]
  less_iff c d := by simp [Arithmetic.less]
  finite _ := rfl
  nearest_eq _ := rfl
  text_injective := text_injective
  text_form c := ⟨digits c.rational, isDigitRun_digits _, text_toList c⟩

/-- Only an integer is close to one for these numbers. -/
theorem eq_of_nearInteger? {c : Ratio} {n : ℤ} (h : Arithmetic.nearInteger? c = some n) :
    c.rational = n := by
  unfold Arithmetic.nearInteger? at h
  split at h
  · rename_i hc
    obtain rfl := Option.some.inj h
    rw [ExactNumber.finite, Bool.true_and, ExactNumber.less_iff] at hc
    generalize Arithmetic.nearest c = n at hc ⊢
    change (functions .abs (c.rational - n)).getD (1 / 2) < ((1 : ℕ) : ℚ) * 10 ^ (-10 : ℤ) at hc
    simp only [functions, integerValue?] at hc
    split at hc
    · rename_i hden
      -- an absolute value that is an integer below the tolerance is zero
      rw [Option.map_some, Option.getD_some] at hc
      have habs : |(c.rational - n).num| < 1 := by
        have : ((|(c.rational - n).num| : ℤ) : ℚ) < (1 : ℤ) := hc.trans (by norm_num)
        exact_mod_cast this
      rw [Int.abs_lt_one_iff, Rat.num_eq_zero] at habs
      linarith
    · norm_num at hc
  · simp at h

/-- The functions have the integer values that simplification gives them. -/
theorem foldsExactly : FoldsExactly Ratio functions := by
  intro f c n v hn hv
  rw [← eq_of_nearInteger? hn]
  change v = (functions f c.rational).getD (1 / 2)
  change functions f c.rational = some v at hv
  rw [hv]
  rfl

end Ratio

end Reckoner
