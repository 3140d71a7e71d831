/-
**Plain notation can be read back.**

The text of an expression has brackets around every operation and around negative numbers, so it
writes down a derivation of the grammar whose tree is the expression: every part is an atom.  What
is read from it is the expression itself, provided that its names are in ASCII and its numbers are
written legibly.

The binary numbers write their digits without an exponent, so a finite one is legible as soon as
its text, read as a number, gives it back.  A negative zero is not: it is written with a minus, and
as it is not less than zero the minus is not in brackets.

Main definitions:

* `Reckoner.Expr.OnlyNumbers` — a property of all numbers of an expression;
* `Reckoner.Legible` — numbers whose text in an expression is an atom of the grammar;
* `Reckoner.ReadsBack` — numbers whose text denotes them.

Main results:

* `Reckoner.Decimal.numeral_plain` — numbers without an exponent are numbers of the grammar, of the
  same value;
* `Reckoner.Expr.spells_text` — **the text of an expression writes it down**;
* `Reckoner.Binary64.legible` — finite binary numbers are legible;
* `Reckoner.Expr.parse_text` — **what is written is read back**.
-/

import Mathlib.Tactic
import Reckoner.Number.Binary64
import Reckoner.Proofs.Precedence
import Reckoner.Proofs.Symbols

set_option autoImplicit false

namespace Reckoner

open Notation (Spells Numeral blanks_nil isPlainName)

/-! ### Decimal numbers -/

namespace Decimal

theorem isDigit_of_mem_padded {width n : ℕ} {c : Char} (h : c ∈ padded width (digits n)) :
    c.isDigit = true := by
  rcases List.mem_append.1 h with h | h
  · rw [(List.mem_replicate.1 h).2]
    rfl
  · exact isDigit_of_mem_digits h

theorem natural_eq_ofDigitChars (cs : List Char) :
    Literal.natural cs = Nat.ofDigitChars 10 cs 0 := rfl

theorem natural_append (xs ys : List Char) : Literal.natural (xs ++ ys) =
    10 ^ ys.length * Literal.natural xs + Literal.natural ys := by
  rw [natural_eq_ofDigitChars, Nat.ofDigitChars_append, Nat.ofDigitChars_eq_ofDigitChars_zero]
  rfl

theorem natural_zeros (k : ℕ) : Literal.natural (List.replicate k '0') = 0 := by
  rw [natural_eq_ofDigitChars, Nat.ofDigitChars_replicate_zero, Nat.mul_zero]

theorem natural_padded (width n : ℕ) : Literal.natural (padded width (digits n)) = n := by
  rw [padded, natural_append, natural_zeros, natural_digits, Nat.mul_zero, Nat.zero_add]

theorem length_padded {width n : ℕ} (hwidth : 0 < width) (h : n < 10 ^ width) :
    (padded width (digits n)).length = width := by
  have hlength : (digits n).length ≤ width := Nat.toDigits_length 10 n width hwidth h
  simp [padded, hlength]

/-- A number without an exponent is a number of the grammar, and has the value of what was to be
written. -/
theorem numeral_plain (n : ℕ) (power : ℤ) :
    ∃ n' p, Numeral (plain n power) n' p ∧ (n' : ℚ) * 10 ^ p = n * 10 ^ power := by
  cases power with
  | ofNat zeros =>
      have hvalue : Literal.natural (digits n ++ List.replicate zeros '0') = 10 ^ zeros * n := by
        rw [natural_append, natural_zeros, natural_digits, List.length_replicate, Nat.add_zero]
      refine ⟨_, _, .whole ?_ fun c hc => ?_, ?_⟩
      · change digits n ++ List.replicate zeros '0' ≠ []
        simp [digits, Nat.toDigits_ne_nil]
      · rcases List.mem_append.1 hc with hc | hc
        · exact isDigit_of_mem_digits hc
        · rw [(List.mem_replicate.1 hc).2]
          rfl
      · change (Literal.natural (digits n ++ List.replicate zeros '0') : ℚ) * _ = _
        rw [hvalue, zpow_zero, mul_one, mul_comm (n : ℚ)]
        push_cast
        rfl
  | negSucc less =>
      have hlength : (padded (less + 1) (digits (n % 10 ^ (less + 1)))).length = less + 1 :=
        length_padded (Nat.succ_pos less) (Nat.mod_lt _ (by positivity))
      have hvalue : Literal.natural (digits (n / 10 ^ (less + 1)) ++
          padded (less + 1) (digits (n % 10 ^ (less + 1)))) = n := by
        rw [natural_append, natural_padded, natural_digits, hlength, Nat.div_add_mod]
      refine ⟨_, _, .pointed ?_ (fun c hc => isDigit_of_mem_digits hc)
        fun c hc => isDigit_of_mem_padded hc, ?_⟩
      · simp [digits, Nat.toDigits_ne_nil]
      · change (Literal.natural (digits (n / 10 ^ (less + 1)) ++
          padded (less + 1) (digits (n % 10 ^ (less + 1)))) : ℚ) *
          10 ^ (-((padded (less + 1) (digits (n % 10 ^ (less + 1)))).length : ℤ)) = _
        rw [hvalue, hlength]
        rfl

end Decimal

/-! ### Numbers of an expression -/

section Texts

variable {κ : Type} {P Q R : κ → Prop} {a b e : Expr κ}

/-- All numbers of an expression have a property. -/
def Expr.OnlyNumbers (P : κ → Prop) : Expr κ → Prop
  | .var _ => True
  | .const c => P c
  | .add a b | .sub a b | .mul a b | .div a b | .pow a b => a.OnlyNumbers P ∧ b.OnlyNumbers P
  | .apply _ a => a.OnlyNumbers P

theorem Expr.OnlyNumbers.combine (h : ∀ c, P c → Q c → R c) (hP : e.OnlyNumbers P)
    (hQ : e.OnlyNumbers Q) : e.OnlyNumbers R := by
  induction e with
  | var => trivial
  | const c => exact h c hP hQ
  | add a b iha ihb | sub a b iha ihb | mul a b iha ihb | div a b iha ihb | pow a b iha ihb =>
      exact ⟨iha hP.1 hQ.1, ihb hP.2 hQ.2⟩
  | apply f a ih => exact ih hP hQ

theorem Expr.OnlyNumbers.imp (h : ∀ c, P c → Q c) (hP : e.OnlyNumbers P) : e.OnlyNumbers Q :=
  hP.combine (fun c hc _ => h c hc) hP

variable [Number κ]

/-- The text of the number in an expression is an atom of the grammar and stands for the
number. -/
def Legible (c : κ) : Prop := Spells .atom (Expr.constText c).toList (.const c)

/-- The text of the number, read as a number, denotes it. -/
def ReadsBack (c : κ) : Prop :=
  (Literal.read (Number.text c).toList).map Arithmetic.ofLiteral = some c

namespace Expr

theorem spells_sum {t : List Char} (h : Spells .atom t e) : Spells .sum t e :=
  .term (.factor (.unsigned (.atom h)))

/-- **The text of an expression writes it down**, as one atom. -/
theorem spells_text (names : OnlyNames (fun x => isPlainName x.toList = true) e)
    (numbers : OnlyNumbers Legible e) : Spells .atom e.text.toList e := by
  have blank : Notation.Blanks [' '] := by decide
  induction e with
  | var x => exact .name (onlyNames_var.1 names)
  | const c => exact numbers
  | add a b iha ihb =>
      obtain ⟨ha, hb⟩ := onlyNames_add.1 names
      have h := Spells.sum (spells_sum (iha ha numbers.1)) blank blank
        (.factor (.unsigned (.atom (ihb hb numbers.2))))
      simpa [text] using Spells.group blanks_nil blanks_nil h
  | sub a b iha ihb =>
      obtain ⟨ha, hb⟩ := onlyNames_sub.1 names
      have h := Spells.difference (spells_sum (iha ha numbers.1)) blank blank
        (.factor (.unsigned (.atom (ihb hb numbers.2))))
      simpa [text] using Spells.group blanks_nil blanks_nil h
  | mul a b iha ihb =>
      obtain ⟨ha, hb⟩ := onlyNames_mul.1 names
      have h := Spells.product (.factor (.unsigned (.atom (iha ha numbers.1)))) blank blank
        (.unsigned (.atom (ihb hb numbers.2)))
      simpa [text] using Spells.group blanks_nil blanks_nil (.term h)
  | div a b iha ihb =>
      obtain ⟨ha, hb⟩ := onlyNames_div.1 names
      have h := Spells.quotient (.factor (.unsigned (.atom (iha ha numbers.1)))) blank blank
        (.unsigned (.atom (ihb hb numbers.2)))
      simpa [text] using Spells.group blanks_nil blanks_nil (.term h)
  | pow a b iha ihb =>
      obtain ⟨ha, hb⟩ := onlyNames_pow.1 names
      have h := Spells.power (iha ha numbers.1) blank blank (.unsigned (.atom (ihb hb numbers.2)))
      simpa [text] using Spells.group blanks_nil blanks_nil (.term (.factor (.unsigned h)))
  | apply f a ih =>
      have h := spells_sum (ih (onlyNames_apply.1 names) numbers)
      simpa [text] using
        Spells.call (Elementary.ofName?_name f) blanks_nil blanks_nil blanks_nil h

/-- An expression with names in ASCII and legible numbers is read back from its text. -/
theorem parse_text_of_legible (names : OnlyNames (fun x => isPlainName x.toList = true) e)
    (numbers : OnlyNumbers Legible e) : Expr.parse e.text = .ok e :=
  (spells_text names numbers).parse_eq_ok

end Expr

/-- A number is legible if it is written with digits, and a minus in front only if it is less than
zero. -/
theorem legible_of_numeral {c : κ} {cs : List Char} {n : ℕ} {p : ℤ} (hn : Numeral cs n p)
    (hback : ReadsBack c) (htext : (Number.text c).toList = cs ∨
      (Number.text c).toList = '-' :: cs ∧ Arithmetic.isNegative c = true) : Legible c := by
  rcases htext with htext | ⟨htext, hnegative⟩
  · have hvalue : Arithmetic.ofDecimal n p = c := by
      rw [ReadsBack, htext, hn.read] at hback
      exact Option.some.inj hback
    have h : Spells .atom (Number.text c).toList (.const c) := by
      rw [htext, ← hvalue]
      exact .number hn
    unfold Legible Expr.constText
    split
    · simpa using Spells.group blanks_nil blanks_nil (Expr.spells_sum h)
    · exact h
  · have hvalue : -(Arithmetic.ofDecimal n p) = c := by
      rw [ReadsBack, htext, hn.read_minus] at hback
      exact Option.some.inj hback
    have h : Spells .signed (Number.text c).toList (.const c) := by
      rw [htext, ← hvalue]
      exact .negative blanks_nil (.unsigned (.atom (.number hn)))
    rw [Legible, Expr.constText, if_pos hnegative]
    simpa using Spells.group blanks_nil blanks_nil (.term (.factor h))

end Texts

/-! ### Binary numbers -/

namespace Binary64

open Float.Model (UnpackedFloat)

/-- The zero with a minus. -/
def isNegativeZero (x : Float) : Bool :=
  match x.toModel.unpack with
  | .zero .negative => true
  | _ => false

theorem unpack_zero : (Arithmetic.zero : Float).toModel.unpack = .zero .positive := rfl

theorem isNegative_of_unpack {x : Float} {m : ℕ} {q : ℤ} {hm : 0 < m}
    (h : x.toModel.unpack = .finite .negative m q hm) : Arithmetic.isNegative x = true := by
  have hlt : x.toModel < (Arithmetic.zero : Float).toModel := by
    change UnpackedFloat.lt x.toModel.unpack (Arithmetic.zero : Float).toModel.unpack = true
    rw [h, unpack_zero]
    rfl
  have hless : x < (Arithmetic.zero : Float) := decide_eq_true hlt
  exact decide_eq_true hless

/-- The text of a finite number other than a negative zero: digits, and a minus in front if the
number is less than zero. -/
theorem text_of_isFinite {x : Float} (hfinite : Arithmetic.isFinite x = true)
    (hzero : isNegativeZero x = false) : ∃ cs n p, Numeral cs n p ∧
      ((text x).toList = cs ∨ (text x).toList = '-' :: cs ∧ Arithmetic.isNegative x = true) := by
  change (reading x).isFinite = true at hfinite
  cases hx : x.toModel.unpack with
  | notANumber => simp [reading, hx, Reading.isFinite, Reading.value?] at hfinite
  | infinity s => simp [reading, hx, Reading.isFinite, Reading.value?] at hfinite
  | zero s =>
      cases s with
      | positive =>
          refine ⟨['0'], _, _, .whole (by simp) (by simp), .inl ?_⟩
          rw [text, hx]
          exact String.toList_ofList
      | negative => simp [isNegativeZero, hx] at hzero
  | finite s m q hm =>
      obtain ⟨n, p, hn, -⟩ := Decimal.numeral_plain (shortest m q).1 (shortest m q).2
      refine ⟨_, n, p, hn, ?_⟩
      cases s with
      | positive =>
          left
          rw [text, hx]
          exact String.toList_ofList
      | negative =>
          refine .inr ⟨?_, isNegative_of_unpack hx⟩
          rw [text, hx]
          exact String.toList_ofList

/-- A finite binary number is legible, if its text denotes it and it is no negative zero. -/
theorem legible {x : Float} (hfinite : Arithmetic.isFinite x = true)
    (hzero : isNegativeZero x = false) (hback : ReadsBack x) : Legible x := by
  obtain ⟨cs, n, p, hn, htext⟩ := text_of_isFinite hfinite hzero
  exact legible_of_numeral hn hback htext

end Binary64

namespace Expr

/-- **What is written is read back**: an expression over the binary numbers is the one that its text
denotes, if its names are in ASCII and its numbers are finite and no negative zeros.  That the
shortest text of a number denotes the number is assumed of the numbers that occur. -/
theorem parse_text {e : Expr Float} (names : OnlyNames (fun x => isPlainName x.toList = true) e)
    (numbers : OnlyNumbers
      (fun c => Arithmetic.isFinite c = true ∧ Binary64.isNegativeZero c = false) e)
    (library : OnlyNumbers ReadsBack e) : Expr.parse e.text = .ok e := by
  refine parse_text_of_legible names (numbers.combine ?_ library)
  rintro c ⟨hfinite, hzero⟩ hback
  exact Binary64.legible hfinite hzero hback

/-- An expression with a negative number and a fraction. -/
def signedFraction : Expr Float :=
  .pow (.div (.const 0.1) (.apply .arctan (.var "x_1"))) (.sub (.var "pi") (.const (-2)))

/-- It is written `((0.1 / arctan(x_1)) ^ (pi - (-2)))`. -/
theorem parse_text_signedFraction :
    OnlyNames (fun x => isPlainName x.toList = true) signedFraction ∧
      OnlyNumbers (fun c => Arithmetic.isFinite c = true ∧ Binary64.isNegativeZero c = false)
        signedFraction ∧
      OnlyNumbers ReadsBack signedFraction ∧
      Expr.parse signedFraction.text = .ok signedFraction := by
  have tenth : ReadsBack (0.1 : Float) := by unfold ReadsBack; decide
  have minusTwo : ReadsBack (-2 : Float) := by unfold ReadsBack; decide
  have names : OnlyNames (fun x => isPlainName x.toList = true) signedFraction := by
    have hx : isPlainName "x_1".toList = true := by decide
    have hpi : isPlainName "pi".toList = true := by decide
    simp only [signedFraction, onlyNames_pow, onlyNames_div, onlyNames_sub, onlyNames_apply,
      onlyNames_var, onlyNames_const]
    exact ⟨⟨trivial, hx⟩, hpi, trivial⟩
  have numbers : OnlyNumbers
      (fun c => Arithmetic.isFinite c = true ∧ Binary64.isNegativeZero c = false)
      signedFraction := by
    refine ⟨⟨⟨?_, ?_⟩, trivial⟩, trivial, ?_, ?_⟩ <;> decide
  have library : OnlyNumbers ReadsBack signedFraction := ⟨⟨tenth, trivial⟩, trivial, minusTwo⟩
  exact ⟨names, numbers, library, parse_text names numbers library⟩

end Expr

end Reckoner
