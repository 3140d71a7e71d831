/-
**Fractions and roots beside other operators.**

A fraction becomes a quotient of brackets and a root with a degree becomes a power of brackets, and
there is no bracket around the whole.  In LaTeX the whole is one operand; in plain notation it is
one only where the operators beside it are looser.  A division in front of a fraction ends at its
numerator, a power behind a fraction raises its denominator, and a power behind a root raises the
exponent of the root, since products are grouped to the left and powers to the right.

What is read has the value of the operand as a whole only by accident: when nothing is divided or
the denominator is a unit of order two, and when the numerator is not changed by the power.

Main definitions:

* `Reckoner.Canonical.inBraces` — an argument in braces;
* `Reckoner.Notation.Simple` — a single letter or a number.

Main results:

* `Reckoner.Notation.parse_normalizeChars_divided`,
  `Reckoner.Notation.parse_normalizeChars_fractionPower`,
  `Reckoner.Notation.parse_normalizeChars_rootPower` — what is read;
* `Reckoner.Expr.hasValue_div_div_iff`, `Reckoner.Expr.hasValue_div_pow_iff` — when the value is
  that of the whole operand;
* `Reckoner.Expr.parse_normalize_fractionOperand` — **fractions and roots are taken apart by a
  division in front and by a power behind**.
-/

import Reckoner.Expr.Latex
import Reckoner.Proofs.MacroTexts
import Reckoner.Proofs.Meaning
import Reckoner.Proofs.Operands
import Reckoner.Proofs.Ratio

set_option autoImplicit false

namespace Reckoner

/-! ### Canonical texts -/

namespace Canonical

variable {s t a b n : List Char}

theorem unmarked_of_digits (h : ∀ c ∈ t, c.isDigit = true) : Unmarked t := by
  intro c hc
  have hcode := Text.toNat_of_isDigit (h c hc)
  refine ⟨?_, ?_, ?_⟩ <;> rintro rfl <;> exact absurd hcode (by decide)

/-- An argument in braces. -/
def inBraces (t : List Char) : List Char := '\x7b' :: (t ++ ['\x7d'])

/-- An argument has no macro, and neither have its braces. -/
theorem Unmarked.inBraces_ne_backslash (ht : Unmarked t) : ∀ c ∈ inBraces t, c ≠ '\\' := by
  have := ht.ne_backslash
  simpa [inBraces, or_imp, forall_and] using this

/-- Implied products around a fraction are found in its arguments, by themselves. -/
theorem insertProducts_quotient (a : List Char) (hr : ∀ d ∈ t.head?, isSeparator d = true) :
    insertProducts (parenthesized a ++ '/' :: (parenthesized b ++ t)) =
      parenthesized (insertProducts a) ++ '/' :: (parenthesized (insertProducts b) ++
        insertProducts t) := by
  have hslash : insertProducts ('/' :: (parenthesized b ++ t)) =
      '/' :: insertProducts (parenthesized b ++ t) :=
    insertProducts_separator (s := []) .nil rfl _
  rw [insertProducts_group (isSeparator_of_mem_head? rfl _), hslash, insertProducts_group hr]

/-- A division in front of a fraction. -/
theorem normalizeChars_divided (hs : Unmarked s) (hexplicit : Explicit s) (ha : Unmarked a)
    (hb : Unmarked b) :
    normalizeChars (s ++ "\\div\\frac".toList ++ inBraces a ++ inBraces b) =
      s ++ '/' ::
        (parenthesized (normalizeChars a) ++ '/' :: parenthesized (normalizeChars b)) := by
  have hdiv : Writes "\\div".toList "/".toList :=
    .command (m := ("\\div", "/")) (by decide)
  have hwrites := (hs.writes.append hdiv).append (ha.writes.fraction hb.writes)
  have htext : s ++ "\\div\\frac".toList ++ inBraces a ++ inBraces b = s ++ "\\div".toList ++
      ("\\frac".toList ++ '\x7b' :: (a ++ '\x7d' :: '\x7b' :: (b ++ ['\x7d']))) := by
    simp [inBraces]
  have hplain : s ++ "/".toList ++ ('(' :: (a ++ [')'] ++ '/' :: '(' :: (b ++ [')']))) =
      s ++ '/' :: (parenthesized a ++ '/' :: (parenthesized b ++ [])) := by
    simp [parenthesized]
  rw [htext, hwrites.normalizeChars, hplain, insertProducts_separator hexplicit rfl,
    insertProducts_quotient a (by simp), ha.normalizeChars, hb.normalizeChars]
  simp [insertProducts, insertTimes]

theorem insertProducts_power (hn : ∀ c ∈ n, c.isDigit = true) :
    insertProducts ('^' :: n) = '^' :: n := by
  have := insertProducts_separator (s := []) (c := '^') .nil rfl n
  rwa [(explicit_of_digits hn).insertProducts] at this

/-- A power behind a fraction. -/
theorem normalizeChars_fractionPower (ha : Unmarked a) (hb : Unmarked b)
    (hn : ∀ c ∈ n, c.isDigit = true) :
    normalizeChars ("\\frac".toList ++ inBraces a ++ inBraces b ++ '^' :: inBraces n) =
      parenthesized (normalizeChars a) ++
        '/' :: (parenthesized (normalizeChars b) ++ '^' :: n) := by
  have hcaret : Writes ['^'] ['^'] := .char (by decide)
  have hpower := hcaret.append (unmarked_of_digits hn).writes.group
  have hwrites := (ha.writes.fraction hb.writes).append hpower
  have htext : "\\frac".toList ++ inBraces a ++ inBraces b ++ '^' :: inBraces n =
      "\\frac".toList ++ '\x7b' :: (a ++ '\x7d' :: '\x7b' :: (b ++ ['\x7d'])) ++
        (['^'] ++ '\x7b' :: (n ++ ['\x7d'])) := by
    simp [inBraces]
  have hplain : '(' :: (a ++ [')'] ++ '/' :: '(' :: (b ++ [')'])) ++ (['^'] ++ n) =
      parenthesized a ++ '/' :: (parenthesized b ++ '^' :: n) := by
    simp [parenthesized]
  rw [htext, hwrites.normalizeChars, hplain,
    insertProducts_quotient a (isSeparator_of_mem_head? rfl _), insertProducts_power hn,
    ha.normalizeChars, hb.normalizeChars]

/-- Once fractions and roots are plain and no macro is left, the other steps go on as from the
start. -/
theorem normalizeChars_of_plainMacros (hs : avoids "\\operatorname".toList s = true)
    (hplain : plainMacros s = t) (ht : ∀ c ∈ t, c ≠ '\\') :
    normalizeChars s = normalizeChars t := by
  have names {s : List Char} (hs : avoids "\\operatorname".toList s = true) :
      dropOperatorNames s = s := by
    have := replaceWith_append (fun cs => operatorName?_of_after?) hs []
    simpa [dropOperatorNames, Text.replaceWith] using this
  have hmacros : plainMacros t = t := by
    have := plainMacros_of_forall ht []
    simpa [plainMacros] using this
  rw [normalizeChars, normalizeChars, names hs, names (avoids_of_forall ht), hplain, hmacros]

/-- One over a degree. -/
def inverse (n : List Char) : List Char := "1/".toList ++ Canonical.parenthesized n

theorem unmarked_inverse (hn : ∀ c ∈ n, c.isDigit = true) : Unmarked (inverse n) := by
  have hone : Unmarked "1/".toList := by decide
  exact hone.append (unmarked_of_digits hn).parenthesized

theorem explicit_inverse (hn : ∀ c ∈ n, c.isDigit = true) : Explicit (inverse n) := by
  have hone : Explicit ['1'] := List.isChain_singleton _
  exact hone.joined (c := '/') rfl (explicit_of_digits hn).group

/-- Behind the name of a root there are no macros. -/
theorem ne_backslash_of_mem_root (ha : Unmarked a) (hn : ∀ c ∈ n, c.isDigit = true)
    (ht : ∀ c ∈ t, c ≠ '\\') : ∀ c ∈ n ++ ']' :: (inBraces a ++ t), c ≠ '\\' := by
  have hradicand := List.forall_mem_append.2 ⟨ha.inBraces_ne_backslash, ht⟩
  exact List.forall_mem_append.2
    ⟨(unmarked_of_digits hn).ne_backslash, List.forall_mem_cons.2 ⟨by decide, hradicand⟩⟩

/-- A root with a degree has no bracket around it. -/
theorem plainMacros_nthRoot (ha : Unmarked a) (hn : ∀ c ∈ n, c.isDigit = true)
    (ht : ∀ c ∈ t, c ≠ '\\') :
    plainMacros ("\\sqrt[".toList ++ (n ++ ']' :: (inBraces a ++ t))) =
      parenthesized a ++ '^' :: parenthesized (inverse n) ++ t := by
  have hclose : ∀ c ∈ n, c ≠ ']' := by
    rintro c hc rfl
    exact absurd (hn _ hc) (by decide)
  have hrest : ∀ c ∈ "sqrt[".toList ++ (n ++ ']' :: (inBraces a ++ t)), c ≠ '\\' :=
    List.forall_mem_append.2 ⟨by simp, ne_backslash_of_mem_root ha hn ht⟩
  have hsource := plainMacros_command hrest []
  have hmacro := plainMacro?_nthRoot hclose (braced_of_forall fun c hc => (ha c hc).2) t
  have htext : "\\sqrt".toList ++ '[' :: (n ++ ']' :: '\x7b' :: (a ++ '\x7d' :: t)) =
      '\\' :: ("sqrt[".toList ++ (n ++ ']' :: (inBraces a ++ t))) := by
    simp [inBraces]
  rw [htext] at hmacro
  rw [plainMacros, List.append_nil, hmacro] at hsource
  exact hsource

/-- The root becomes plain before the other steps see it. -/
theorem normalizeChars_nthRoot (ha : Unmarked a) (hn : ∀ c ∈ n, c.isDigit = true)
    (ht : ∀ c ∈ t, c ≠ '\\') :
    normalizeChars ("\\sqrt[".toList ++ (n ++ ']' :: (inBraces a ++ t))) =
      normalizeChars (parenthesized a ++ '^' :: parenthesized (inverse n) ++ t) := by
  have hnames : avoids "\\operatorname".toList
      ("\\sqrt[".toList ++ (n ++ ']' :: (inBraces a ++ t))) = true := by
    have hname : avoids "\\operatorname".toList "\\sqrt[".toList = true := by decide
    exact avoids_append hname (avoids_of_forall (ne_backslash_of_mem_root ha hn ht))
  have hmacros : ∀ c ∈ parenthesized a ++ '^' :: parenthesized (inverse n) ++ t, c ≠ '\\' := by
    have hexponent : ∀ c ∈ '^' :: parenthesized (inverse n), c ≠ '\\' :=
      List.forall_mem_cons.2 ⟨by decide, (unmarked_inverse hn).parenthesized.ne_backslash⟩
    have hpower := List.forall_mem_append.2 ⟨ha.parenthesized.ne_backslash, hexponent⟩
    exact List.forall_mem_append.2 ⟨hpower, ht⟩
  exact normalizeChars_of_plainMacros hnames (plainMacros_nthRoot ha hn ht) hmacros

/-- A power behind a root with a degree. -/
theorem normalizeChars_rootPower (ha : Unmarked a) (hn : ∀ c ∈ n, c.isDigit = true) :
    normalizeChars ("\\sqrt[".toList ++ (n ++ ']' :: (inBraces a ++ '^' :: inBraces n))) =
      parenthesized (normalizeChars a) ++ '^' :: (parenthesized (inverse n) ++ '^' :: n) := by
  have hdigits := unmarked_of_digits hn
  have hbehind : ∀ c ∈ '^' :: inBraces n, c ≠ '\\' :=
    List.forall_mem_cons.2 ⟨by decide, hdigits.inBraces_ne_backslash⟩
  have hcaret : Writes ['^'] ['^'] := .char (by decide)
  have hdegree := hcaret.append ((unmarked_inverse hn).parenthesized.writes.append
    (hcaret.append hdigits.writes.group))
  have hwrites := ha.parenthesized.writes.append hdegree
  have htext : parenthesized a ++ '^' :: parenthesized (inverse n) ++ '^' :: inBraces n =
      parenthesized a ++ (['^'] ++ (parenthesized (inverse n) ++
        (['^'] ++ '\x7b' :: (n ++ ['\x7d'])))) := by
    simp [inBraces]
  have hexponent : insertProducts ('^' :: (parenthesized (inverse n) ++ '^' :: n)) =
      '^' :: (parenthesized (inverse n) ++ '^' :: n) := by
    have := insertProducts_separator (s := []) (c := '^') .nil rfl
      (parenthesized (inverse n) ++ '^' :: n)
    rw [insertProducts_group (isSeparator_of_mem_head? rfl n),
      (explicit_inverse hn).insertProducts, insertProducts_power hn] at this
    exact this
  rw [normalizeChars_nthRoot ha hn hbehind, htext, hwrites.normalizeChars]
  simp only [List.singleton_append]
  rw [insertProducts_group (isSeparator_of_mem_head? rfl _), hexponent, ha.normalizeChars]

end Canonical

/-! ### Reading -/

namespace Notation

open Canonical

variable {κ : Type} [Number κ] {s a b n : List Char} {l x y : Expr κ}

/-- A single letter, or a number. -/
inductive Simple : List Char → Prop
  | letter {c : Char} : Text.isLetter c = true → Simple [c]
  | number {t : List Char} {n : ℕ} {p : ℤ} : Numeral t n p → Simple t

theorem Simple.atLevel (hs : Simple s) : AtLevel .atom s := by
  cases hs with
  | letter hc => exact atLevel_name (by simpa [isMixedName] using hc)
  | number hn => exact (Spells.number (κ := Float) hn).atLevel

theorem Simple.unmarked (hs : Simple s) : Unmarked s := by
  intro c hc
  have hchar : Text.isLetter c = true ∨ isWordChar c = true := by
    cases hs with
    | letter h =>
        obtain rfl := List.mem_singleton.1 hc
        exact .inl h
    | number h => exact .inr (h.word.chars c hc)
  refine ⟨?_, ?_, ?_⟩ <;> rintro rfl <;> exact absurd hchar (by decide +kernel)

theorem Simple.explicit (hs : Simple s) : Explicit s := by
  cases hs with
  | letter => exact List.isChain_singleton _
  | number h =>
      refine explicit_of_forall fun d hd => ?_
      rcases h.digit_or_point d hd with hdigit | rfl
      · have hcode := Text.toNat_of_isDigit hdigit
        refine ⟨?_, ?_⟩
        · rw [Bool.eq_false_iff]
          intro hletter
          have := Text.toNat_of_isAlpha hletter
          omega
        · rintro rfl
          exact absurd hcode (by decide)
      · decide

/-- The number that is written with digits. -/
def ofDigits (n : List Char) : Expr κ := .const (Arithmetic.ofDecimal (Literal.natural n) 0)

theorem spells_ofDigits (hne : n ≠ []) (hn : ∀ c ∈ n, c.isDigit = true) :
    Spells .atom n (ofDigits n : Expr κ) :=
  .number (.whole hne hn)

theorem parse_normalizeChars_digits (hne : n ≠ []) (hn : ∀ c ∈ n, c.isDigit = true) :
    parse (normalizeChars n) = .ok (ofDigits n : Expr κ) := by
  rw [(unmarked_of_digits hn).normalizeChars, (explicit_of_digits hn).insertProducts]
  exact (spells_ofDigits hne hn).parse_eq_ok

/-- **A division in front of a fraction ends at its numerator.** -/
theorem parse_normalizeChars_divided (hs : Simple s) (ha : Unmarked a) (hb : Unmarked b)
    (hl : parse s = .ok l) (hx : parse (normalizeChars a) = .ok x)
    (hy : parse (normalizeChars b) = .ok y) :
    parse (normalizeChars (s ++ "\\div\\frac".toList ++ inBraces a ++ inBraces b)) =
      .ok (.div (.div l x) y) := by
  have hnum := atLevel_parenthesized (nested_of_parse hx)
  have hden := atLevel_parenthesized (nested_of_parse hy)
  have hfront := (hs.atLevel.loosen (by decide)).quotient (hnum.loosen (by decide))
  have hinner : parse (s ++ '/' :: parenthesized (normalizeChars a)) = .ok (.div l x) := by
    rw [(hs.atLevel.loosen (by decide)).parse_quotient (hnum.loosen (by decide)), hl,
      parse_parenthesized hx]
    rfl
  have houter := hfront.parse_quotient (κ := κ) (hden.loosen (by decide))
  rw [List.append_assoc, List.cons_append, hinner, parse_parenthesized hy] at houter
  rw [normalizeChars_divided hs.unmarked hs.explicit ha hb, houter]
  rfl

/-- **A power behind a fraction raises its denominator.** -/
theorem parse_normalizeChars_fractionPower (ha : Unmarked a) (hb : Unmarked b) (hne : n ≠ [])
    (hn : ∀ c ∈ n, c.isDigit = true) (hx : parse (normalizeChars a) = .ok x)
    (hy : parse (normalizeChars b) = .ok y) :
    parse (normalizeChars ("\\frac".toList ++ inBraces a ++ inBraces b ++ '^' :: inBraces n)) =
      .ok (.div x (.pow y (ofDigits n))) := by
  have hnum := atLevel_parenthesized (nested_of_parse hx)
  have hden := atLevel_parenthesized (nested_of_parse hy)
  have hexponent := spells_ofDigits (κ := κ) hne hn
  have hsigned := hexponent.atLevel.loosen (k := .signed) (by decide)
  have hpower : parse (parenthesized (normalizeChars b) ++ '^' :: n) =
      .ok (.pow y (ofDigits n)) := by
    rw [hden.parse_power hsigned, parse_parenthesized hy, hexponent.parse_eq_ok]
    rfl
  rw [normalizeChars_fractionPower ha hb hn, (hnum.loosen (by decide)).parse_quotient
    ((hden.power hsigned).loosen (by decide)), parse_parenthesized hx, hpower]
  rfl

/-- One over the degree is read as a quotient. -/
theorem spells_inverse (hne : n ≠ []) (hn : ∀ c ∈ n, c.isDigit = true) :
    Spells .product (inverse n) (.div (ofDigits ['1']) (ofDigits n : Expr κ)) := by
  have hone : Spells .product ['1'] (ofDigits ['1'] : Expr κ) :=
    (spells_ofDigits (by simp) (by simp)).loosen (by decide)
  have hdegree : Spells .atom (parenthesized n) (ofDigits n : Expr κ) := by
    have hsum : Spells .sum n (ofDigits n : Expr κ) :=
      (spells_ofDigits hne hn).loosen (by decide)
    have := Spells.group (u := []) (v := []) blanks_nil blanks_nil hsum
    simpa [parenthesized] using this
  have := hone.quotient (w := []) (u := []) blanks_nil blanks_nil
    (hdegree.loosen (by decide))
  simpa [inverse] using this

/-- **A power behind a root raises the exponent of the root.** -/
theorem parse_normalizeChars_rootPower (ha : Unmarked a) (hne : n ≠ [])
    (hn : ∀ c ∈ n, c.isDigit = true) (hx : parse (normalizeChars a) = .ok x) :
    parse (normalizeChars ("\\sqrt[".toList ++ (n ++ ']' :: (inBraces a ++ '^' :: inBraces n)))) =
      .ok (.pow x (.pow (.div (ofDigits ['1']) (ofDigits n)) (ofDigits n))) := by
  have hbase := atLevel_parenthesized (nested_of_parse hx)
  have hexponent := spells_ofDigits (κ := κ) hne hn
  have hsigned := hexponent.atLevel.loosen (k := .signed) (by decide)
  have hinverse := spells_inverse (κ := κ) hne hn
  have hdegree := atLevel_parenthesized hinverse.nested
  have hpower : parse (parenthesized (inverse n) ++ '^' :: n) =
      .ok (.pow (.div (ofDigits ['1']) (ofDigits n)) (ofDigits n : Expr κ)) := by
    rw [hdegree.parse_power hsigned, parse_parenthesized hinverse.parse_eq_ok,
      hexponent.parse_eq_ok]
    rfl
  rw [normalizeChars_rootPower ha hn,
    hbase.parse_power ((hdegree.power hsigned).loosen (by decide)), parse_parenthesized hx, hpower]
  rfl

end Notation

/-! ### Values -/

namespace Expr

variable {κ : Type} [Number κ] {K : Type} [Field K] [CharZero K] {I : Functions K} {σ : Scope K}
variable {l a b c : Expr κ} {x : K}

/-- A quotient by a quotient is taken apart without a change of value when it is zero, or when the
last denominator is one or minus one. -/
theorem hasValue_div_div_iff (h : HasValue I σ (.div l (.div a b)) x) :
    HasValue I σ (.div (.div l a) b) x ↔ x = 0 ∨ ∃ w, HasValue I σ b w ∧ w ^ 2 = 1 := by
  cases h with
  | @div _ _ u _ hu hquotient hne =>
      cases hquotient with
      | @div _ _ v w hv hw hw0 =>
          have hv0 : v ≠ 0 := (div_ne_zero_iff.1 hne).1
          have hread : HasValue I σ (.div (.div l a) b) (u / v / w) := .div (.div hu hv hv0) hw hw0
          have hequal : u / (v / w) = u / v / w ↔ u = 0 ∨ w ^ 2 = 1 := by
            have hcross : u / (v / w) = u / v / w ↔ u * w ^ 2 = u := by field_simp
            rw [hcross, mul_right_eq_self₀, or_comm]
          have hzero : u / (v / w) = 0 ↔ u = 0 := by simp [hv0, hw0]
          rw [hzero]
          constructor
          · intro hx
            rcases hequal.1 (hx.unique hread) with hu0 | hsquare
            · exact .inl hu0
            · exact .inr ⟨w, hw, hsquare⟩
          · intro hcase
            have hsame : u / (v / w) = u / v / w := by
              refine hequal.2 ?_
              rcases hcase with hu0 | ⟨w', hw', hsquare⟩
              · exact .inl hu0
              · rw [hw.unique hw']
                exact .inr hsquare
            rw [hsame]
            exact hread

/-- A power of a quotient is taken apart without a change of value when the power does not change
the numerator. -/
theorem hasValue_div_pow_iff {n : ℕ} (hn : 0 < n) (hc : HasValue I σ c ((n : ℤ) : K))
    (h : HasValue I σ (.pow (.div a b) c) x) :
    HasValue I σ (.div a (.pow b c)) x ↔ ∃ v, HasValue I σ a v ∧ (v = 0 ∨ v ^ (n - 1) = 1) := by
  cases h with
  | @pow _ _ u m hquotient hm _ =>
      obtain rfl : m = n := Int.cast_injective (hm.unique hc)
      cases hquotient with
      | @div _ _ v w hv hw hw0 =>
          have hread : HasValue I σ (.div a (.pow b c)) (v / w ^ (n : ℤ)) :=
            .div hv (.pow hw hc (.inl hw0)) (zpow_ne_zero _ hw0)
          have hequal : (v / w) ^ (n : ℤ) = v / w ^ (n : ℤ) ↔ v = 0 ∨ v ^ (n - 1) = 1 := by
            obtain ⟨m, rfl⟩ : ∃ m, n = m + 1 := ⟨n - 1, by omega⟩
            have hpow := pow_ne_zero (m + 1) hw0
            rw [zpow_natCast, zpow_natCast, div_pow, div_left_inj' hpow, pow_succ',
              Nat.add_sub_cancel, mul_right_eq_self₀, or_comm]
          constructor
          · intro hx
            exact ⟨v, hv, hequal.1 (hx.unique hread)⟩
          · rintro ⟨v', hv', hcase⟩
            rw [hv'.unique hv] at hcase
            rw [hequal.2 hcase]
            exact hread

/-! ### Strings -/

section Strings

open Notation Canonical

variable {s A B E n : String} {e : Expr κ}

/-- **Fractions and roots are taken apart by a division in front and by a power behind.**  A
division by a fraction has the value it should have just when that is zero or the denominator is one
or minus one, and a power of a fraction just when the power does not change the numerator. -/
theorem parse_normalize_fractionOperand [ExactNumber κ] (hs : Simple s.toList)
    (hA : Unmarked A.toList) (hB : Unmarked B.toList) (hE : Unmarked E.toList)
    (hn : ∀ c ∈ n.toList, c.isDigit = true) (htwo : 2 ≤ Literal.natural n.toList)
    (hl : Expr.parse s = .ok l) (ha : Expr.parse (normalize A) = .ok a)
    (hb : Expr.parse (normalize B) = .ok b) (he : Expr.parse (normalize E) = .ok e) :
    let ν : Expr κ := ofDigits n.toList
    (Expr.parse (normalize (s ++ "\\div\\frac" ++ braced A ++ braced B)) =
        .ok (.div (.div l a) b) ∧
      ∀ x : K, HasValue I σ (.div l (.div a b)) x →
        (HasValue I σ (.div (.div l a) b) x ↔ x = 0 ∨ ∃ w, HasValue I σ b w ∧ w ^ 2 = 1)) ∧
    (Expr.parse (normalize ("\\frac" ++ braced A ++ braced B ++ "^" ++ braced n)) =
        .ok (.div a (.pow b ν)) ∧
      ∀ x : K, HasValue I σ (.pow (.div a b) ν) x →
        (HasValue I σ (.div a (.pow b ν)) x ↔
          ∃ v, HasValue I σ a v ∧ (v = 0 ∨ v ^ (Literal.natural n.toList - 1) = 1))) ∧
    Expr.parse (normalize ("\\sqrt[" ++ n ++ "]" ++ braced E ++ "^" ++ braced n)) =
      .ok (.pow e (.pow (.div (ofDigits ['1']) ν) ν)) := by
  intro ν
  have hne : n.toList ≠ [] := by
    intro hnil
    rw [hnil] at htwo
    exact absurd htwo (by decide)
  have hν : HasValue I σ ν (((Literal.natural n.toList : ℕ) : ℤ) : K) := by
    refine hasValue_const_iff.2 ?_
    simp [valueIn, ExactNumber.value_ofDecimal]
  simp only [Expr.parse, normalize, String.toList_ofList] at hl ha hb he ⊢
  have hdivided := parse_normalizeChars_divided hs hA hB hl ha hb
  have hpower := parse_normalizeChars_fractionPower hA hB hne hn ha hb
  have hroot := parse_normalizeChars_rootPower hE hne hn he
  refine ⟨⟨?_, fun x => hasValue_div_div_iff⟩, ⟨?_, fun x => ?_⟩, ?_⟩
  · simpa [braced, inBraces, String.toList_append] using hdivided
  · simpa [braced, inBraces, String.toList_append] using hpower
  · exact hasValue_div_pow_iff (by omega) hν
  · simpa [braced, inBraces, String.toList_append] using hroot

/-- The readings of `8` divided by the fraction of `4` and `2`, of the third power of that fraction,
and of the third power of the third root of `7`. -/
theorem parse_normalize_fractionOperand_digits :
    let number (d : Char) : Expr Ratio := ofDigits [d]
    Expr.parse (normalize ("8" ++ "\\div\\frac" ++ braced "4" ++ braced "2")) =
        .ok (.div (.div (number '8') (number '4')) (number '2')) ∧
      Expr.parse (normalize ("\\frac" ++ braced "4" ++ braced "2" ++ "^" ++ braced "3")) =
        .ok (.div (number '4') (.pow (number '2') (number '3'))) ∧
      Expr.parse (normalize ("\\sqrt[" ++ "3" ++ "]" ++ braced "7" ++ "^" ++ braced "3")) =
        .ok (.pow (number '7') (.pow (.div (number '1') (number '3')) (number '3'))) := by
  intro number
  have argument {d : String} (hne : d.toList ≠ []) (hd : ∀ c ∈ d.toList, c.isDigit = true) :
      Expr.parse (normalize d) = .ok (ofDigits d.toList : Expr Ratio) := by
    rw [Expr.parse, normalize, String.toList_ofList]
    exact parse_normalizeChars_digits hne hd
  have eight : Simple "8".toList := .number (.whole (by simp) (by simp))
  have hl : Expr.parse "8" = .ok (ofDigits "8".toList : Expr Ratio) :=
    (spells_ofDigits (by simp) (by simp)).parse_eq_ok
  obtain ⟨hdivided, hpower, hroot⟩ := parse_normalize_fractionOperand (κ := Ratio) (K := ℚ)
    (I := Ratio.functions) (σ := fun _ => none) (n := "3") eight (unmarked_of_digits (by simp))
    (unmarked_of_digits (by simp)) (unmarked_of_digits (by simp)) (by simp) (by decide) hl
    (argument (d := "4") (by simp) (by simp)) (argument (d := "2") (by simp) (by simp))
    (argument (d := "7") (by simp) (by simp))
  exact ⟨hdivided.1, hpower.1, hroot⟩

/-- Eight divided by two is four, but eight divided by the fraction of four and two is read as one:
as `8 / 4 / 2`. -/
theorem parse_normalize_dividedByFraction :
    let number (d : Char) : Expr Ratio := ofDigits [d]
    let e := Expr.div (number '8') (.div (number '4') (number '2'))
    let e' := Expr.div (.div (number '8') (number '4')) (number '2')
    HasValue Ratio.functions (fun _ => none) e 4 ∧
      Expr.parse (normalize ("8" ++ "\\div\\frac" ++ braced "4" ++ braced "2")) = .ok e' ∧
      HasValue Ratio.functions (fun _ => none) e' 1 ∧
      ¬HasValue Ratio.functions (fun _ => none) e' 4 := by
  intro number e e'
  have value (d : Char) : HasValue Ratio.functions (fun _ => none) (number d)
      (Literal.natural [d] : ℚ) := by
    refine hasValue_const_iff.2 ?_
    simp [valueIn, ExactNumber.value_ofDecimal]
  have hdigits : (Literal.natural ['8'] : ℚ) = 8 ∧ (Literal.natural ['4'] : ℚ) = 4 ∧
      (Literal.natural ['2'] : ℚ) = 2 := by
    decide
  have hnumbers := And.intro (value '8') (And.intro (value '4') (value '2'))
  rw [hdigits.1, hdigits.2.1, hdigits.2.2] at hnumbers
  obtain ⟨height, hfour, htwo⟩ := hnumbers
  have hvalue : HasValue Ratio.functions (fun _ => none) e 4 := by
    have h := height.div (hfour.div htwo (by norm_num)) (by norm_num)
    norm_num at h
    exact h
  have hother : HasValue Ratio.functions (fun _ => none) e' 1 := by
    have h := (height.div hfour (by norm_num)).div htwo (by norm_num)
    norm_num at h
    exact h
  refine ⟨hvalue, ?_, hother, ?_⟩
  · have eight : Simple ['8'] := .number (.whole (by simp) (by simp))
    have hl : Notation.parse ['8'] = .ok (number '8') :=
      (spells_ofDigits (by simp) (by simp)).parse_eq_ok
    have hdivided := parse_normalizeChars_divided eight
      (unmarked_of_digits (t := ['4']) (by simp)) (unmarked_of_digits (t := ['2']) (by simp)) hl
      (parse_normalizeChars_digits (by simp) (by simp))
      (parse_normalizeChars_digits (by simp) (by simp))
    rw [Expr.parse, normalize, String.toList_ofList]
    simpa [braced, inBraces, String.toList_append] using hdivided
  · intro h
    have := h.unique hother
    norm_num at this

end Strings

end Expr

end Reckoner
