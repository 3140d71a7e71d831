/-
**The calculator reads its own LaTeX.**

The LaTeX of an expression has brackets only where the printer holds them to be needed, and it is
read by way of plain notation.  What has to be seen is that the operands end up where they were
or, where sums and products are grouped anew, that the value is the same.  Each clause of the
printer puts marked-up text together, and each is matched by a way to put derivations of the grammar
together; then the printer is followed clause by clause.

One clause goes astray.  The printer takes a fraction to be grouped by itself, and so has no
brackets around a fraction that is raised to a power; in plain notation it is a bare quotient, and
the power binds to the denominator alone.  What is read is the *lowered* expression, in which every
power of a quotient is a quotient by the power.

Main definitions:

* `Reckoner.Expr.IsRational` — expressions of letters and integers, with integer exponents;
* `Reckoner.Expr.lowered` — powers of quotients as quotients by powers;
* `Reckoner.Expr.Denotes` — plain text that is read with every value of an expression;
* `Reckoner.Expr.ReadsAs` — marked-up text that becomes such a text.

Main results:

* `Reckoner.Expr.Denotes.sum`, … , `Reckoner.Expr.Denotes.power` — texts are put together from
  operands, and sums, products and signs may be grouped anew;
* `Reckoner.Expr.readsAs_latex` — **the LaTeX of an expression is read as the lowered expression**;
* `Reckoner.Expr.parse_normalize_latex` — **what is written in LaTeX is read back**, with its value
  unless it is a power of a quotient.
-/

import Reckoner.Expr.Latex
import Reckoner.Proofs.Markup
import Reckoner.Proofs.Precedence
import Reckoner.Proofs.Ratio

set_option autoImplicit false

namespace Reckoner

open Arithmetic (isNegative)
open Notation (Level Spells Numeral Blanks minus blanks_nil)

namespace Expr

open Canonical (Writes Explicit)

/-! ### Regrouping -/

section Regrouping

variable {κ : Type} [Number κ] {K : Type} [Field K] {I : Functions K} {a b e : Expr κ}

theorem refines_add_add : Refines I (.add a (.add b e)) (.add (.add a b) e) := by
  intro σ v h
  cases h with
  | add ha hsum =>
      cases hsum with
      | add hb he =>
          rw [← add_assoc]
          exact .add (.add ha hb) he

theorem refines_add_sub : Refines I (.add a (.sub b e)) (.sub (.add a b) e) := by
  intro σ v h
  cases h with
  | add ha hdifference =>
      cases hdifference with
      | sub hb he =>
          rw [← add_sub_assoc]
          exact .sub (.add ha hb) he

theorem refines_mul_mul : Refines I (.mul a (.mul b e)) (.mul (.mul a b) e) := by
  intro σ v h
  cases h with
  | mul ha hproduct =>
      cases hproduct with
      | mul hb he =>
          rw [← mul_assoc]
          exact .mul (.mul ha hb) he

theorem refines_mul_div : Refines I (.mul a (.div b e)) (.div (.mul a b) e) := by
  intro σ v h
  cases h with
  | mul ha hquotient =>
      cases hquotient with
      | div hb he hne =>
          rw [← mul_div_assoc]
          exact .div (.mul ha hb) he hne

/-- A minus in front negates. -/
theorem refines_minus [ExactNumber κ] : Refines I e.negated (minus e) := by
  cases e with
  | const c =>
      intro σ v h
      cases h with
      | mul hminus hc =>
          rw [hasValue_ofInt_iff.1 hminus, hasValue_const_iff.1 hc, minus, hasValue_const_iff,
            valueIn_neg]
          simp
  | _ => exact .refl _

theorem refines_const {c d : κ} (h : Number.value c = Number.value d) :
    Refines I (.const c) (.const d) := by
  intro σ v hv
  rw [hasValue_const_iff] at hv ⊢
  rw [hv, valueIn, valueIn, h]

end Regrouping

/-! ### Plain texts -/

section Denotes

variable {κ : Type} [Number κ] {K : Type} [Field K] {I : Functions K}
variable {l l' : Level} {s t : List Char} {a b e : Expr κ}

/-- The text implies no products, and it writes down a derivation from the level whose tree has
every value of `e`. -/
def Denotes (I : Functions K) (l : Level) (t : List Char) (e : Expr κ) : Prop :=
  Explicit t ∧ ∃ e', Spells l t e' ∧ Refines I e e'

namespace Denotes

theorem of_refines (h : Denotes I l t b) (hr : Refines I a b) : Denotes I l t a := by
  obtain ⟨ht, e', he, hb⟩ := h
  exact ⟨ht, e', he, hr.trans hb⟩

theorem loosen (h : Denotes I l t e) (hl : l.rank ≤ l'.rank) : Denotes I l' t e := by
  obtain ⟨ht, e', he, hr⟩ := h
  exact ⟨ht, e', he.loosen hl, hr⟩

/-- Terms are added one by one, so that a sum on the right is grouped to the left. -/
theorem sum (ha : Denotes I .sum s a) (hb : Denotes I .sum t b) :
    Denotes I .sum (s ++ '+' :: t) (.add a b) := by
  obtain ⟨hs, a', ha', hra⟩ := ha
  obtain ⟨ht, b', hb', hrb⟩ := hb
  refine ⟨hs.joined rfl ht, ?_⟩
  suffices h : ∃ e', Spells .sum (s ++ '+' :: t) e' ∧ Refines I (.add a' b') e' by
    obtain ⟨e', he', hr⟩ := h
    exact ⟨e', he', (hra.add hrb).trans hr⟩
  clear ht hrb
  induction hb' using Spells.sum_induction with
  | term hb' =>
      have h := Spells.sum ha' blanks_nil blanks_nil hb'
      exact ⟨_, by simpa using h, .refl _⟩
  | sum _ hw hu ht ih =>
      obtain ⟨e', he', hr⟩ := ih
      have h := Spells.sum he' hw hu ht
      exact ⟨_, by simpa using h, refines_add_add.trans (hr.add (.refl _))⟩
  | difference _ hw hu ht ih =>
      obtain ⟨e', he', hr⟩ := ih
      have h := Spells.difference he' hw hu ht
      exact ⟨_, by simpa using h, refines_add_sub.trans (hr.sub (.refl _))⟩

theorem difference (ha : Denotes I .sum s a) (hb : Denotes I .product t b) :
    Denotes I .sum (s ++ '-' :: t) (.sub a b) := by
  obtain ⟨hs, a', ha', hra⟩ := ha
  obtain ⟨ht, b', hb', hrb⟩ := hb
  have h := Spells.difference ha' blanks_nil blanks_nil hb'
  exact ⟨hs.joined rfl ht, _, by simpa using h, hra.sub hrb⟩

/-- Factors are multiplied one by one: what may stand in front of a factor may stand in front of a
product, which is then grouped to the left. -/
theorem product_behind {x : Expr κ}
    (factor : ∀ {t b}, Spells .signed t b →
      ∃ e', Spells .product (s ++ t) e' ∧ Refines I (.mul x b) e')
    (h : Spells .product t b) : ∃ e', Spells .product (s ++ t) e' ∧ Refines I (.mul x b) e' := by
  induction h using Spells.product_induction with
  | factor hb => exact factor hb
  | product _ hw hu ht ih =>
      obtain ⟨e', he', hr⟩ := ih
      have h := Spells.product he' hw hu ht
      exact ⟨_, by simpa using h, refines_mul_mul.trans (hr.mul (.refl _))⟩
  | quotient _ hw hu ht ih =>
      obtain ⟨e', he', hr⟩ := ih
      have h := Spells.quotient he' hw hu ht
      exact ⟨_, by simpa using h, refines_mul_div.trans (hr.div (.refl _))⟩

theorem product (ha : Denotes I .product s a) (hb : Denotes I .product t b) :
    Denotes I .product (s ++ '*' :: ' ' :: t) (.mul a b) := by
  obtain ⟨hs, a', ha', hra⟩ := ha
  obtain ⟨ht, b', hb', hrb⟩ := hb
  have hblank : Blanks [' '] := by decide
  have hbehind : Explicit (' ' :: t) := Explicit.joined (s := []) .nil rfl ht
  obtain ⟨e', he', hr⟩ : ∃ e', Spells .product (s ++ ['*', ' '] ++ t) e' ∧
      Refines I (.mul a' b') e' := by
    refine product_behind ?_ hb'
    intro t b hb
    have h := Spells.product ha' blanks_nil hblank hb
    exact ⟨_, by simpa using h, .refl _⟩
  exact ⟨hs.joined rfl hbehind, e', by simpa using he', (hra.mul hrb).trans hr⟩

/-- A minus in front of a product belongs to its first factor. -/
theorem negative [ExactNumber κ] (hb : Denotes I .product t b) :
    Denotes I .product ('-' :: t) b.negated := by
  obtain ⟨ht, b', hb', hrb⟩ := hb
  obtain ⟨e', he', hr⟩ : ∃ e', Spells .product (['-'] ++ t) e' ∧ Refines I b'.negated e' := by
    refine product_behind ?_ hb'
    intro t b hb
    exact ⟨_, .factor (.negative blanks_nil hb), refines_minus⟩
  have hnegated : Refines I b.negated b'.negated := (Refines.refl _).mul hrb
  exact ⟨Explicit.joined (s := []) .nil rfl ht, e', he', hnegated.trans hr⟩

theorem quotient (ha : Denotes I .product s a) (hb : Denotes I .signed t b) :
    Denotes I .product (s ++ '/' :: t) (.div a b) := by
  obtain ⟨hs, a', ha', hra⟩ := ha
  obtain ⟨ht, b', hb', hrb⟩ := hb
  have h := Spells.quotient ha' blanks_nil blanks_nil hb'
  exact ⟨hs.joined rfl ht, _, by simpa using h, hra.div hrb⟩

theorem power (ha : Denotes I .atom s a) (hb : Denotes I .signed t b) :
    Denotes I .power (s ++ '^' :: t) (.pow a b) := by
  obtain ⟨hs, a', ha', hra⟩ := ha
  obtain ⟨ht, b', hb', hrb⟩ := hb
  have h := Spells.power ha' blanks_nil blanks_nil hb'
  exact ⟨hs.joined rfl ht, _, by simpa using h, hra.pow hrb⟩

theorem group (ha : Denotes I .sum t a) : Denotes I .atom ('(' :: (t ++ [')'])) a := by
  obtain ⟨ht, a', ha', hra⟩ := ha
  have h := Spells.group blanks_nil blanks_nil ha'
  exact ⟨ht.group, _, by simpa using h, hra⟩

end Denotes

end Denotes

/-! ### Marked-up texts -/

section ReadsAs

variable {κ : Type} [Number κ] {K : Type} [Field K] {I : Functions K}
variable {l l' : Level} {s s' s'' : String} {a b e : Expr κ}

/-- The marked-up text becomes a plain text that is read with every value of `e`. -/
def ReadsAs (I : Functions K) (l : Level) (s : String) (e : Expr κ) : Prop :=
  ∃ t, Writes s.toList t ∧ Denotes I l t e

namespace ReadsAs

theorem of_refines (h : ReadsAs I l s b) (hr : Refines I a b) : ReadsAs I l s a := by
  obtain ⟨t, hw, hd⟩ := h
  exact ⟨t, hw, hd.of_refines hr⟩

theorem loosen (h : ReadsAs I l s e) (hl : l.rank ≤ l'.rank) : ReadsAs I l' s e := by
  obtain ⟨t, hw, hd⟩ := h
  exact ⟨t, hw, hd.loosen hl⟩

theorem toSum (h : ReadsAs I l s e) : ReadsAs I .sum s e := h.loosen l.rank_le_sum

/-- An operator of plain notation stands for itself. -/
theorem writes_operator {s t : List Char} {o : Char} (ho : Canonical.isSeparator o = true)
    (h : Writes s t) : Writes (o :: s) (o :: t) := by
  have hplain : o ≠ '\\' ∧ o ≠ '\x7b' ∧ o ≠ '\x7d' := by
    rcases Canonical.mem_separators ho with rfl | rfl | rfl | rfl | rfl | rfl <;> decide
  exact (Writes.char hplain).append h

theorem sum (ha : ReadsAs I .sum s a) (hb : ReadsAs I .sum s' b) :
    ReadsAs I .sum (s ++ "+" ++ s') (.add a b) := by
  obtain ⟨t, hw, hd⟩ := ha
  obtain ⟨t', hw', hd'⟩ := hb
  have h := hw.append (writes_operator (o := '+') rfl hw')
  exact ⟨_, by simpa using h, hd.sum hd'⟩

theorem difference (ha : ReadsAs I .sum s a) (hb : ReadsAs I .product s' b) :
    ReadsAs I .sum (s ++ "-" ++ s') (.sub a b) := by
  obtain ⟨t, hw, hd⟩ := ha
  obtain ⟨t', hw', hd'⟩ := hb
  have h := hw.append (writes_operator (o := '-') rfl hw')
  exact ⟨_, by simpa using h, hd.difference hd'⟩

theorem product (ha : ReadsAs I .product s a) (hb : ReadsAs I .product s' b) :
    ReadsAs I .product (s ++ "\\cdot " ++ s') (.mul a b) := by
  obtain ⟨t, hw, hd⟩ := ha
  obtain ⟨t', hw', hd'⟩ := hb
  have hdot := Writes.command (m := ("\\cdot", "*")) (by decide)
  have h := hw.append (hdot.append (writes_operator (o := ' ') rfl hw'))
  exact ⟨_, by simpa using h, hd.product hd'⟩

theorem negative [ExactNumber κ] (hb : ReadsAs I .product s b) :
    ReadsAs I .product ("-" ++ s) b.negated := by
  obtain ⟨t, hw, hd⟩ := hb
  have h := writes_operator (o := '-') rfl hw
  exact ⟨_, by simpa using h, hd.negative⟩

theorem bracketed (ha : ReadsAs I .sum s a) : ReadsAs I .atom (bracketed s) a := by
  obtain ⟨t, hw, hd⟩ := ha
  have hopen := Writes.command (m := ("\\left(", "(")) (by decide)
  have hclose := Writes.command (m := ("\\right)", ")")) (by decide)
  have h := hopen.append (hw.append hclose)
  exact ⟨_, by simpa [Expr.bracketed] using h, hd.group⟩

/-- A fraction is a quotient of brackets. -/
theorem fraction (ha : ReadsAs I .sum s a) (hb : ReadsAs I .sum s' b) :
    ReadsAs I .product ("\\frac" ++ braced s ++ braced s') (.div a b) := by
  obtain ⟨t, hw, hd⟩ := ha
  obtain ⟨t', hw', hd'⟩ := hb
  have h := hw.fraction hw'
  have hquotient := (hd.group.loosen (by decide)).quotient (hd'.group.loosen (by decide))
  exact ⟨_, by simpa [braced] using h, by simpa using hquotient⟩

theorem power (ha : ReadsAs I .atom s a) (hb : ReadsAs I .signed s' b) :
    ReadsAs I .power (s ++ "^" ++ braced s') (.pow a b) := by
  obtain ⟨t, hw, hd⟩ := ha
  obtain ⟨t', hw', hd'⟩ := hb
  have h := hw.append (writes_operator (o := '^') rfl hw'.group)
  exact ⟨_, by simpa [braced] using h, hd.power hd'⟩

/-- A power behind a fraction is one of its denominator. -/
theorem fractionPower (ha : ReadsAs I .sum s a) (hb : ReadsAs I .sum s' b)
    (he : ReadsAs I .signed s'' e) :
    ReadsAs I .product ("\\frac" ++ braced s ++ braced s' ++ "^" ++ braced s'')
      (.div a (.pow b e)) := by
  obtain ⟨t, hw, hd⟩ := ha
  obtain ⟨t', hw', hd'⟩ := hb
  obtain ⟨t'', hw'', hd''⟩ := he
  have h := (hw.fraction hw').append (writes_operator (o := '^') rfl hw''.group)
  have hpower := hd'.group.power hd''
  have hquotient := (hd.group.loosen (by decide)).quotient (hpower.loosen (by decide))
  exact ⟨_, by simpa [braced] using h, by simpa using hquotient⟩

end ReadsAs

end ReadsAs

/-! ### Letters and integers -/

section Operands

variable {κ : Type} [Number κ] {K : Type} [Field K] {I : Functions K} {x : String} {c : Char}

theorem variableLatex_letter (hc : c.isAlpha = true) (hx : x.toList = [c]) :
    variableLatex x = x := by
  have hne {y : String} (hy : y.toList ≠ [c]) : (x == y) = false := by
    rw [beq_eq_false_iff_ne]
    rintro rfl
    exact hy hx
  have hgreek : "π".toList ≠ [c] := by
    intro h
    obtain rfl := List.singleton_inj.1 h
    exact absurd hc (by decide)
  have hlength : x.length = 1 := by
    rw [← String.length_toList, hx]
    rfl
  simp [variableLatex, hne (y := "pi") (by simp), hne hgreek, hne (y := "hbar") (by simp),
    hne (y := "Infinity") (by simp), hlength]

/-- A letter stands for itself. -/
theorem readsAs_letter (hc : c.isAlpha = true) (hx : x.toList = [c]) :
    ReadsAs I .atom (variableLatex x) (.var x : Expr κ) := by
  have hcode := Text.toNat_of_isAlpha hc
  have hplain : c ≠ '\\' ∧ c ≠ '\x7b' ∧ c ≠ '\x7d' := by
    refine ⟨?_, ?_, ?_⟩ <;> rintro rfl <;> exact absurd hcode (by decide)
  have hname : Notation.isPlainName x.toList = true := by simp [Notation.isPlainName, hx, hc]
  rw [variableLatex_letter hc hx]
  refine ⟨x.toList, ?_, ?_, .var x, .name hname, .refl _⟩
  · rw [hx]
    exact .char hplain
  · rw [hx]
    exact List.isChain_singleton c

theorem fixed_zero_intCast (n : ℤ) : Decimal.fixed 0 n =
    String.ofList (if n < 0 then '-' :: Decimal.digits n.natAbs else Decimal.digits n.natAbs) := by
  have hround : Decimal.roundEven (n.natAbs * Nat.pow 10 0) 1 = n.natAbs := by
    simp [Decimal.roundEven, Nat.mod_one]
  have hpointed : Decimal.pointed 0 n.natAbs = Decimal.digits n.natAbs := by
    simp [Decimal.pointed]
  simp only [Decimal.fixed, Rat.num_intCast, Rat.den_intCast, hround, hpointed]
  simp

/-- The LaTeX of an integer is its digits, with a minus in front if it is negative. -/
theorem latex_intCast (n : ℤ) : (Reading.finite n).latex =
    String.ofList (if n < 0 then '-' :: Decimal.digits n.natAbs else Decimal.digits n.natAbs) := by
  have hsnap : ((n : ℚ) - ((nearestInteger n : ℤ) : ℚ)).abs < Reading.snap := by
    rw [nearestInteger_intCast, sub_self]
    decide
  rw [Reading.latex, if_pos hsnap, nearestInteger_intCast, fixed_zero_intCast]

variable [ExactNumber κ]

/-- The digits of a natural number are read as a number of that value. -/
theorem spells_digits (n : ℕ) : ∃ d : κ, Number.value d = n ∧
    Spells .atom (Decimal.digits n) (.const d) := by
  have hn := Numeral.whole (w := Decimal.digits n) (by simp [Decimal.digits, Nat.toDigits_ne_nil])
    fun d hd => Decimal.isDigit_of_mem_digits hd
  rw [Decimal.natural_digits] at hn
  refine ⟨_, ?_, .number hn⟩
  simp [ExactNumber.value_ofDecimal]

/-- An integer is read as a number of its value. -/
theorem readsAs_integer {c : κ} {n : ℤ} (hc : Number.value c = n) :
    ReadsAs I (if isNegative c then .signed else .atom) (Number.reading c).latex (.const c) := by
  obtain ⟨d, hd, hspells⟩ := spells_digits (κ := κ) n.natAbs
  have hdigits : Explicit (Decimal.digits n.natAbs) :=
    Canonical.explicit_of_digits fun d hd => Decimal.isDigit_of_mem_digits hd
  have hwrites : Writes (Decimal.digits n.natAbs) (Decimal.digits n.natAbs) := by
    refine .text fun d hd => ?_
    have hcode := Text.toNat_of_isDigit (Decimal.isDigit_of_mem_digits hd)
    refine ⟨?_, ?_, ?_⟩ <;> rintro rfl <;> exact absurd hcode (by decide)
  rw [ExactNumber.reading_eq, hc, latex_intCast]
  by_cases hn : n < 0
  · have hnegative : isNegative c = true := by
      rw [isNegative_iff, hc]
      exact_mod_cast hn
    have hvalue : Number.value c = Number.value (-d) := by
      rw [ExactNumber.value_neg, hd, hc, Nat.cast_natAbs, abs_of_neg hn]
      simp
    rw [if_pos hnegative, if_pos hn]
    refine ⟨_, ?_, Explicit.joined (s := []) .nil rfl hdigits, .const (-d),
      .negative blanks_nil (.unsigned (.atom hspells)), refines_const hvalue⟩
    simpa using ReadsAs.writes_operator (o := '-') rfl hwrites
  · have hnegative : ¬isNegative c = true := by
      rw [isNegative_iff, hc]
      exact_mod_cast hn
    have hvalue : Number.value c = Number.value d := by
      rw [hd, hc, Nat.cast_natAbs, abs_of_nonneg (not_lt.1 hn)]
    rw [if_neg hnegative, if_neg hn]
    exact ⟨_, by simpa using hwrites, hdigits, .const d, hspells, refines_const hvalue⟩

end Operands

/-! ### Powers of quotients -/

section Lowered

variable {κ : Type} {a e : Expr κ}

/-- The expression in which every power of a quotient is a quotient by the power. -/
def lowered : Expr κ → Expr κ
  | .var x => .var x
  | .const c => .const c
  | .add a b => .add a.lowered b.lowered
  | .sub a b => .sub a.lowered b.lowered
  | .mul a b => .mul a.lowered b.lowered
  | .div a b => .div a.lowered b.lowered
  | .pow (.div a b) n => .div a.lowered (.pow b.lowered n)
  | .pow a n => .pow a.lowered n
  | .apply f a => .apply f a.lowered

/-- A power of a quotient occurs. -/
def raisesQuotient : Expr κ → Bool
  | .var _ | .const _ => false
  | .add a b | .sub a b | .mul a b | .div a b => a.raisesQuotient || b.raisesQuotient
  | .pow (.div _ _) _ => true
  | .pow a _ => a.raisesQuotient
  | .apply _ a => a.raisesQuotient

theorem lowered_pow (ha : ∀ p q, a ≠ .div p q) (n : Expr κ) :
    (Expr.pow a n).lowered = .pow a.lowered n := by
  cases a with
  | div p q => exact absurd rfl (ha p q)
  | _ => rfl

theorem raisesQuotient_pow (ha : ∀ p q, a ≠ .div p q) (n : Expr κ) :
    (Expr.pow a n).raisesQuotient = a.raisesQuotient := by
  cases a with
  | div p q => exact absurd rfl (ha p q)
  | _ => rfl

/-- Without powers of quotients nothing is lowered. -/
theorem lowered_eq_self (h : e.raisesQuotient = false) : e.lowered = e := by
  induction e with
  | var | const => rfl
  | add a b iha ihb | sub a b iha ihb | mul a b iha ihb | div a b iha ihb =>
      rw [raisesQuotient, Bool.or_eq_false_iff] at h
      rw [lowered, iha h.1, ihb h.2]
  | pow a n iha _ =>
      have ha : ∀ p q, a ≠ .div p q := by
        rintro p q rfl
        simp [raisesQuotient] at h
      rw [raisesQuotient_pow ha] at h
      rw [lowered_pow ha, iha h]
  | apply f a ih =>
      rw [raisesQuotient] at h
      rw [lowered, ih h]

end Lowered

/-! ### The clauses of the printer -/

section Printer

variable {κ : Type} [Number κ] {K : Type} [Field K] {I : Functions K} {a b e o : Expr κ}

/-- Letters and integers under the five operations, with integers as exponents. -/
def IsRational : Expr κ → Prop
  | .var x => ∃ c : Char, c.isAlpha = true ∧ x.toList = [c]
  | .const c => ∃ n : ℤ, Number.value c = n
  | .add a b | .sub a b | .mul a b | .div a b => a.IsRational ∧ b.IsRational
  | .pow a b => a.IsRational ∧ ∃ c, b = .const c ∧ ∃ n : ℤ, Number.value c = n
  | .apply _ _ => False

/-- The level from which the LaTeX of an expression is read. -/
def readLevel : Expr κ → Level
  | .var _ | .apply _ _ => .atom
  | .const c => if isNegative c then .signed else .atom
  | .add _ _ | .sub _ _ => .sum
  | .mul _ _ | .div _ _ | .pow _ _ => .product

theorem rank_readLevel_le (h : 2 ≤ e.strength.rank) : e.readLevel.rank ≤ 3 := by
  cases e with
  | const c =>
      rw [readLevel]
      split <;> decide
  | add | sub => simp [strength, Strength.rank] at h
  | _ => simp [readLevel, Level.rank]

/-- Within a product there are brackets around what is bound less tightly. -/
theorem ReadsAs.asFactor {least : Strength} {s : String} (hleast : 2 ≤ least.rank)
    (h : ReadsAs I e.readLevel s b) : ReadsAs I .product (grouped least e s) b := by
  unfold grouped
  split
  · exact h.toSum.bracketed.loosen (by decide)
  · exact h.loosen (rank_readLevel_le (by omega))

/-- Under a power there are brackets around everything but atoms, and the only atom that is not read
as one is a fraction. -/
theorem ReadsAs.asBase {s : String} (he : ∀ p q, e ≠ .div p q)
    (h : ReadsAs I e.readLevel s b) : ReadsAs I .atom (grouped .atom e s) b := by
  unfold grouped
  split
  · exact h.toSum.bracketed
  · rename_i hatom
    have hlevel : e.readLevel = .atom := by
      cases e with
      | var | apply => rfl
      | const c =>
          cases hc : isNegative c with
          | true => simp [strength, hc, Strength.rank] at hatom
          | false => simp [readLevel, hc]
      | div p q => exact absurd rfl (he p q)
      | add | sub | mul | pow => simp [strength, Strength.rank] at hatom
    rwa [hlevel] at h

variable [ExactNumber κ]

/-- The opposite of a summand is built from the same parts. -/
theorem IsRational.opposite (h : b.IsRational) (ho : b.opposite? = some o) : o.IsRational := by
  have hneg {c : κ} (hc : ∃ n : ℤ, Number.value c = n) : ∃ n : ℤ, Number.value (-c) = n := by
    obtain ⟨n, hn⟩ := hc
    exact ⟨-n, by simp [ExactNumber.value_neg, hn]⟩
  unfold opposite? at ho
  split at ho
  · split at ho
    · obtain rfl := Option.some.inj ho
      exact hneg h
    · simp at ho
  · split at ho
    · obtain rfl := Option.some.inj ho
      exact h.2
    · split at ho
      · obtain rfl := Option.some.inj ho
        exact ⟨hneg h.1, h.2⟩
      · simp at ho
  · simp at ho

/-- A factor minus one negates. -/
theorem refines_minusOne (ha : a.isMinusOneConst = true) : Refines I (.mul a b) b.negated := by
  cases a with
  | const c =>
      have hc : c = Arithmetic.minusOne := Reckoner.same_iff_eq.1 ha
      rw [hc]
      exact .refl _
  | _ => simp [isMinusOneConst] at ha

/-- To subtract the opposite of a summand is to add the summand. -/
theorem refines_opposite (ho : b.opposite? = some o) :
    Refines I (.add a b.lowered) (.sub a o.lowered) := by
  intro σ v h
  cases h with
  | @add _ _ u w ha hb =>
      suffices hopposite : HasValue I σ o.lowered (-w) by
        rw [← sub_neg_eq_add]
        exact .sub ha hopposite
      unfold opposite? at ho
      split at ho
      · split at ho
        · obtain rfl := Option.some.inj ho
          rw [lowered, hasValue_const_iff] at hb ⊢
          rw [hb, valueIn_neg]
        · simp at ho
      · cases hb with
        | @mul _ _ u' w' hc hb' =>
            rw [lowered, hasValue_const_iff] at hc
            split at ho
            · rename_i hminus
              obtain rfl := Option.some.inj ho
              rw [hc, Reckoner.same_iff_eq.1 hminus, Arithmetic.minusOne, valueIn_ofInt]
              simpa using hb'
            · split at ho
              · obtain rfl := Option.some.inj ho
                rw [hc, ← neg_mul, ← valueIn_neg, lowered, lowered]
                exact .mul (.const _) hb'
              · simp at ho
      · simp at ho

/-- **The LaTeX of an expression is read as the lowered expression.** -/
theorem readsAs_latex : ∀ e : Expr κ, e.IsRational → ReadsAs I e.readLevel e.latex e.lowered
  | .var x, h => by
      obtain ⟨c, hc, hx⟩ := h
      rw [latex]
      exact readsAs_letter hc hx
  | .const c, h => by
      obtain ⟨n, hn⟩ := h
      rw [latex]
      exact readsAs_integer hn
  | .add a b, h => by
      obtain ⟨ha, hb⟩ := h
      have iha := (readsAs_latex a ha).toSum
      rw [latex]
      split
      · rename_i o ho
        have hsize := size_le_of_opposite? ho
        have iho := readsAs_latex o (hb.opposite ho)
        exact (iha.difference (iho.asFactor (by decide))).of_refines (refines_opposite ho)
      · exact iha.sum (readsAs_latex b hb).toSum
  | .sub a b, h => by
      obtain ⟨ha, hb⟩ := h
      rw [latex]
      have iha := (readsAs_latex a ha).toSum
      exact iha.difference ((readsAs_latex b hb).asFactor (by decide))
  | .mul a b, h => by
      obtain ⟨ha, hb⟩ := h
      have ihb := readsAs_latex b hb
      rw [latex]
      split
      · rename_i hminus
        have hlowered : a.lowered.isMinusOneConst = true := by
          cases a with
          | const c => exact hminus
          | _ => simp [isMinusOneConst] at hminus
        exact (ihb.asFactor (by decide)).negative.of_refines (refines_minusOne hlowered)
      · exact ((readsAs_latex a ha).asFactor (by decide)).product (ihb.asFactor (by decide))
  | .div a b, h => by
      obtain ⟨ha, hb⟩ := h
      rw [latex]
      exact (readsAs_latex a ha).toSum.fraction (readsAs_latex b hb).toSum
  | .pow a b, h => by
      obtain ⟨ha, c, rfl, n, hn⟩ := h
      have hexponent : ReadsAs I .signed (latex (.const c)) (.const c) := by
        rw [latex]
        refine (readsAs_integer hn).loosen ?_
        split <;> decide
      rw [latex]
      by_cases hdiv : ∃ p q, a = .div p q
      · obtain ⟨p, q, heq⟩ := hdiv
        have hsize : a.size = p.size + q.size + 1 := by rw [heq, size]
        obtain ⟨hp, hq⟩ : p.IsRational ∧ q.IsRational := by rwa [heq] at ha
        have hbase : grouped .atom a a.latex =
            "\\frac" ++ braced p.latex ++ braced q.latex := by
          rw [heq, latex]
          rfl
        rw [hbase, heq]
        have ihp := (readsAs_latex p hp).toSum
        have ihq := (readsAs_latex q hq).toSum
        exact ihp.fractionPower ihq hexponent
      · have hne : ∀ p q, a ≠ .div p q := fun p q heq => hdiv ⟨p, q, heq⟩
        rw [lowered_pow hne]
        have iha := (readsAs_latex a ha).asBase hne
        have hpower : Level.power.rank ≤ Level.product.rank := by decide
        exact (iha.power hexponent).loosen hpower
  | .apply _ _, h => h.elim
termination_by e => e.size
decreasing_by all_goals simp only [size]; omega

/-- **What is written in LaTeX is read back.**  The expression that is read has every value of the
lowered expression, and so every value of the expression unless a quotient is raised to a power. -/
theorem parse_normalize_latex (h : e.IsRational) :
    ∃ e', Expr.parse (normalize e.latex) = .ok e' ∧ Refines I e.lowered e' ∧
      (e.raisesQuotient = false → Refines I e e') := by
  obtain ⟨t, hwrites, hexplicit, e', hspells, hrefines⟩ := (readsAs_latex (I := I) e h).toSum
  have hcanonical : Canonical.normalizeChars e.latex.toList = t := by
    rw [hwrites.normalizeChars, hexplicit.insertProducts]
  refine ⟨e', ?_, hrefines, ?_⟩
  · rw [Expr.parse, normalize, hcanonical, String.toList_ofList]
    exact hspells.parse_eq_ok
  · intro hraises
    rwa [lowered_eq_self hraises] at hrefines

/-- The LaTeX of `-1 * (x - 2)^(-3) + -4 * (y / x)` is read back. -/
theorem parse_normalize_latex_signs :
    let e : Expr Ratio :=
      .add (.mul (.const ⟨-1⟩) (.pow (.sub (.var "x") (.const ⟨2⟩)) (.const ⟨-3⟩)))
        (.mul (.const ⟨-4⟩) (.div (.var "y") (.var "x")))
    e.IsRational ∧ ∃ e', Expr.parse (normalize e.latex) = .ok e' ∧
      Refines Ratio.functions e e' := by
  intro e
  have letter {c : Char} (hc : c.isAlpha = true) : (Expr.var (String.singleton c) :
      Expr Ratio).IsRational := ⟨c, hc, by simp⟩
  have integer (n : ℤ) : ∃ m : ℤ, Number.value (⟨n⟩ : Ratio) = m := ⟨n, rfl⟩
  have he : e.IsRational := by
    refine ⟨⟨integer (-1), ⟨letter (c := 'x') (by decide), integer 2⟩, _, rfl, integer (-3)⟩,
      integer (-4), letter (c := 'y') (by decide), letter (c := 'x') (by decide)⟩
  obtain ⟨e', hread, -, hrefines⟩ := parse_normalize_latex (I := Ratio.functions) he
  exact ⟨he, e', hread, hrefines rfl⟩

/-- The LaTeX of `(3 / 2)^2` is read as `3 / 2^2`: the value is three quarters instead of
nine quarters. -/
theorem parse_normalize_latex_quotientSquare :
    let e : Expr Ratio := .pow (.div (.const ⟨3⟩) (.const ⟨2⟩)) (.const ⟨2⟩)
    let e' : Expr Ratio := .div (.const ⟨3⟩) (.pow (.const ⟨2⟩) (.const ⟨2⟩))
    e.IsRational ∧ HasValue Ratio.functions (fun _ => none) e (9 / 4) ∧
      Expr.parse (normalize e.latex) = .ok e' ∧
      ¬HasValue Ratio.functions (fun _ => none) e' (9 / 4) := by
  intro e e'
  have integer (n : ℤ) : ∃ m : ℤ, Number.value (⟨n⟩ : Ratio) = m := ⟨n, rfl⟩
  have number (n : ℚ) : HasValue Ratio.functions (fun _ => none) (.const (⟨n⟩ : Ratio)) n :=
    hasValue_const_iff.2 (Rat.cast_id n).symm
  have hvalue : HasValue Ratio.functions (fun _ => none) e (9 / 4) := by
    have h := ((number 3).div (number 2) (by norm_num)).pow (n := 2) (number 2) (by norm_num)
    norm_num at h
    exact h
  have hother : HasValue Ratio.functions (fun _ => none) e' (3 / 4) := by
    have hsquare := (number 2).pow (n := 2) (number 2) (by norm_num)
    have h := (number 3).div hsquare (by norm_num)
    norm_num at h
    exact h
  have hlatex : e.latex = "\\frac\x7b3\x7d\x7b2\x7d^\x7b2\x7d" := by
    have hdigit : (Number.reading (⟨3⟩ : Ratio)).latex = "3" ∧
        (Number.reading (⟨2⟩ : Ratio)).latex = "2" := by decide +kernel
    simp only [e, latex, hdigit, grouped, strength, braced]
    rfl
  have hcanonical : normalize e.latex =
      String.ofList ['(', '3', ')', '/', '(', '2', ')', '^', '2'] := by
    rw [hlatex]
    decide
  have hthree : Spells .atom ['3'] (.const (⟨3⟩ : Ratio)) := by
    have h := Spells.digit (κ := Ratio) (d := '3') rfl
    rwa [show Arithmetic.ofDecimal (Literal.natural ['3']) 0 = (⟨3⟩ : Ratio) by decide +kernel] at h
  have htwo : Spells .atom ['2'] (.const (⟨2⟩ : Ratio)) := by
    have h := Spells.digit (κ := Ratio) (d := '2') rfl
    rwa [show Arithmetic.ofDecimal (Literal.natural ['2']) 0 = (⟨2⟩ : Ratio) by decide +kernel] at h
  have hbracket {d : Char} {a : Expr Ratio} (h : Spells .atom [d] a) :
      Spells .atom ['(', d, ')'] a :=
    .group (u := []) (v := []) blanks_nil blanks_nil (h.loosen (by decide))
  have hpower : Spells .power ['(', '2', ')', '^', '2']
      (.pow (.const ⟨2⟩) (.const (⟨2⟩ : Ratio))) :=
    .power (w := []) (u := []) (hbracket htwo) blanks_nil blanks_nil
      (htwo.loosen (by decide))
  have hspells : Spells .product ['(', '3', ')', '/', '(', '2', ')', '^', '2'] e' :=
    .quotient (w := []) (u := []) ((hbracket hthree).loosen (by decide)) blanks_nil blanks_nil
      (.unsigned hpower)
  refine ⟨⟨⟨integer 3, integer 2⟩, _, rfl, integer 2⟩, hvalue, ?_, ?_⟩
  · rw [hcanonical, Expr.parse, String.toList_ofList]
    exact hspells.parse_eq_ok
  · intro h
    have := h.unique hother
    norm_num at this

end Printer

end Expr

end Reckoner
