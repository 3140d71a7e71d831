/-
**The characters of plain notation.**

The tables of letters, digits and white space cover all scripts.  Plain notation is written with
characters of ASCII apart from the names in it, and on those the tables are the obvious classes.

Main results:

* `Reckoner.Text.isLetter_of_lt` — no letter comes before `A`;
* `Reckoner.Text.isBlank_of_visible` — the characters of ASCII that leave a mark are not blank;
* `Reckoner.Text.isBlank_of_isLetter`, `Reckoner.Text.isDecimalDigit_of_isLetter` — no letter is
  blank or a digit;
* `Reckoner.Text.isNameChar_of_mem` — the characters of a name;
* `Reckoner.Text.not_isNameChar_of_isDelimiter` — no bracket, blank or operator is one of them.
-/

import Mathlib.Tactic
import Reckoner.Notation.Shape
import Reckoner.Number.Decimal
import Reckoner.Number.Literal

set_option autoImplicit false

namespace Reckoner.Text

/-! ### Letters -/

/-- A set of ranges that starts above a character does not hold it. -/
theorem inRanges_of_lt {ranges : List (ℕ × ℕ)} {c : Char} (h : ∀ r ∈ ranges, c.toNat < r.1) :
    inRanges ranges c = false := by
  rw [Bool.eq_false_iff, Ne, inRanges_iff]
  rintro ⟨r, hr, hl, -⟩
  have := h r hr
  omega

theorem letterRanges_ge : ∀ r ∈ letterRanges, 0x41 ≤ r.1 := by decide +kernel

theorem toNat_of_isAlpha {c : Char} (h : c.isAlpha = true) :
    (0x41 ≤ c.toNat ∧ c.toNat ≤ 0x5A) ∨ (0x61 ≤ c.toNat ∧ c.toNat ≤ 0x7A) := by
  have h : (decide (c.val ≥ 65 ∧ c.val ≤ 90) || (c.val ≥ 97 && c.val ≤ 122)) = true := h
  simpa [UInt32.le_iff_toNat_le] using h

/-- No letter comes before `A`. -/
theorem isLetter_of_lt {c : Char} (h : c.toNat < 0x41) : isLetter c = false := by
  have alpha : c.isAlpha = false := by
    rw [Bool.eq_false_iff]
    intro ha
    have := toNat_of_isAlpha ha
    omega
  rw [isLetter, isLatinLetter, alpha,
    inRanges_of_lt fun r hr => Nat.lt_of_lt_of_le h (letterRanges_ge r hr)]
  rfl

theorem toNat_of_isDigit {c : Char} (h : c.isDigit = true) :
    0x30 ≤ c.toNat ∧ c.toNat ≤ 0x39 := by
  simpa [Char.isDigit, UInt32.le_iff_toNat_le] using h

/-- A digit is no letter. -/
theorem isLetter_of_isDigit {c : Char} (h : c.isDigit = true) : isLetter c = false := by
  have := toNat_of_isDigit h
  exact isLetter_of_lt (by omega)

/-- The decimal digits of ASCII come before those of all other scripts. -/
theorem decimalDigitRanges_ge : ∀ r ∈ decimalDigitRanges, r = (0x30, 0x39) ∨ 0x660 ≤ r.1 := by
  decide

/-- In ASCII there are no other decimal digits. -/
theorem isDigit_of_isDecimalDigit {c : Char} (hc : c.toNat < 0x80) (h : isDecimalDigit c = true) :
    c.isDigit = true := by
  rw [isDecimalDigit, Bool.or_eq_true, Bool.and_eq_true, inRanges_iff] at h
  rcases h with h | ⟨⟨r, hr, hfirst, hlast⟩, -⟩
  · exact h
  · rcases decimalDigitRanges_ge r hr with rfl | hge
    · simpa [Char.isDigit, UInt32.le_iff_toNat_le] using And.intro hfirst hlast
    · omega

theorem letterRanges_decimalDigitRanges :
    ∀ d ∈ decimalDigitRanges, ∀ r ∈ letterRanges, d.2 < r.1 ∨ r.2 < d.1 := by
  have hall : (decimalDigitRanges.all fun d => letterRanges.all fun r =>
      Nat.blt d.2 r.1 || Nat.blt r.2 d.1) = true := by
    decide +kernel
  simpa [List.all_eq_true] using hall

/-- A letter is no decimal digit of any script. -/
theorem isDecimalDigit_of_isLetter {c : Char} (h : isLetter c = true) :
    isDecimalDigit c = false := by
  rw [Bool.eq_false_iff]
  intro hdigit
  have hascii : c.isDigit = false := by
    rw [Bool.eq_false_iff]
    intro hd
    rw [isLetter_of_isDigit hd] at h
    simp at h
  rw [isLetter, Bool.or_eq_true] at h
  rcases h with h | h
  · have hcode := toNat_of_isAlpha h
    rw [isDigit_of_isDecimalDigit (by omega) hdigit] at hascii
    simp at hascii
  · rw [isDecimalDigit, hascii, Bool.false_or, Bool.and_eq_true] at hdigit
    obtain ⟨d, hd, hfirst, hlast⟩ := inRanges_iff.1 hdigit.1
    obtain ⟨r, hr, hfirst', hlast'⟩ := inRanges_iff.1 h
    have := letterRanges_decimalDigitRanges d hd r hr
    omega

/-! ### Blanks -/

theorem blankRanges_outside : ∀ r ∈ blankRanges, r.2 < 0x21 ∨ 0x7E < r.1 := by decide

/-- The characters of ASCII that leave a mark are not blank. -/
theorem isBlank_of_visible {c : Char} (hl : 0x21 ≤ c.toNat) (hr : c.toNat ≤ 0x7E) :
    isBlank c = false := by
  rw [Bool.eq_false_iff, Ne, isBlank, inRanges_iff]
  rintro ⟨r, hmem, hfirst, hlast⟩
  have := blankRanges_outside r hmem
  omega

theorem letterRanges_blankRanges :
    ∀ b ∈ blankRanges, ∀ r ∈ letterRanges, b.2 < r.1 ∨ r.2 < b.1 := by
  decide +kernel

/-- A letter is not blank. -/
theorem isBlank_of_isLetter {c : Char} (h : isLetter c = true) : isBlank c = false := by
  rw [isLetter, Bool.or_eq_true] at h
  rcases h with h | h
  · have := toNat_of_isAlpha h
    exact isBlank_of_visible (by omega) (by omega)
  · rw [Bool.eq_false_iff, Ne, isBlank, inRanges_iff]
    rintro ⟨b, hb, hfirst, hlast⟩
    obtain ⟨r, hr, hfirst', hlast'⟩ := inRanges_iff.1 h
    have := letterRanges_blankRanges b hb r hr
    omega

/-! ### Names -/

/-- A character inside a name. -/
def isNameChar (c : Char) : Bool := isAlphanumeric c || c == '_'

/-- A character that ends a name. -/
def isDelimiter (c : Char) : Bool := ['(', ')', ' ', '+', '-', '*', '/', '^'].contains c

/-- No bracket, blank or operator is a character of a name. -/
theorem not_isNameChar_of_isDelimiter {c : Char} (h : isDelimiter c = true) :
    isNameChar c = false := by
  simp only [isDelimiter, List.contains_eq_mem, List.mem_cons, List.not_mem_nil, or_false,
    decide_eq_true_eq] at h
  rcases h with rfl | rfl | rfl | rfl | rfl | rfl | rfl | rfl <;> decide +kernel

theorem isNameChar_of_isLetter {c : Char} (h : isLetter c = true) : isNameChar c = true := by
  simp [isNameChar, isAlphanumeric, h]

/-- A name starts with a letter and goes on with characters of names. -/
theorem isIdentifier_iff {cs : List Char} : Notation.isIdentifier cs = true ↔
    ∃ c rest, cs = c :: rest ∧ isLetter c = true ∧ ∀ d ∈ rest, isNameChar d = true := by
  cases cs with
  | nil => simp [Notation.isIdentifier]
  | cons c rest => simp [Notation.isIdentifier, isNameChar]

/-- All characters of a name are characters of names. -/
theorem isNameChar_of_mem {cs : List Char} (h : Notation.isIdentifier cs = true) :
    ∀ c ∈ cs, isNameChar c = true := by
  obtain ⟨c, rest, rfl, hc, hrest⟩ := isIdentifier_iff.1 h
  exact List.forall_mem_cons.2 ⟨isNameChar_of_isLetter hc, hrest⟩

/-! ### Runs of characters -/

/-- A run of characters of one kind ends in front of a text that does not begin with that kind. -/
theorem takeWhile_append_of_head {p : Char → Bool} {xs r : List Char} (hx : ∀ c ∈ xs, p c = true)
    (hr : ∀ c ∈ r.head?, p c = false) :
    (xs ++ r).takeWhile p = xs ∧ (xs ++ r).dropWhile p = r := by
  rw [List.takeWhile_append_of_pos hx, List.dropWhile_append_of_pos hx]
  cases r with
  | nil => simp
  | cons c r => simp [hr c rfl]

/-- Such a run is as long as it can be, so that it ends in one place. -/
theorem append_inj_of_run {p : Char → Bool} {xs ys r s : List Char}
    (hx : ∀ c ∈ xs, p c = true) (hy : ∀ c ∈ ys, p c = true)
    (hr : ∀ c ∈ r.head?, p c = false) (hs : ∀ c ∈ s.head?, p c = false)
    (h : xs ++ r = ys ++ s) : xs = ys ∧ r = s := by
  obtain ⟨htake, hdrop⟩ := takeWhile_append_of_head hx hr
  obtain ⟨htake', hdrop'⟩ := takeWhile_append_of_head hy hs
  rw [← h] at htake' hdrop'
  exact ⟨htake.symm.trans htake', hdrop.symm.trans hdrop'⟩

end Reckoner.Text

namespace Reckoner.Decimal

theorem isDigit_of_mem_digits {n : ℕ} {d : Char} (h : d ∈ digits n) : d.isDigit = true :=
  Nat.isDigit_of_mem_toDigits (by decide) (by decide) h

theorem natural_digits (n : ℕ) : Literal.natural (digits n) = n :=
  Nat.ofDigitChars_toDigits (by decide) (by decide)

end Reckoner.Decimal
