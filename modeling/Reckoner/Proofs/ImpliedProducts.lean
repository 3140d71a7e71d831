/-
**The signs of implied products stay as they are.**

The signs are put in by three passes, and the later ones look at what the earlier ones have left.
A sign is no digit, no letter and no bracket, so that it answers every condition under which a sign
is wanted and creates none, and it never stands behind a letter, so that it does not cut the name
in front of a bracket.  The three passes are therefore one pass with the three conditions, and a
second pass finds nothing to do.

Without a backslash the steps before the signs do nothing but drop the braces, so that a canonical
text in which no macro is left is its own canonical text.

Main definitions:

* `Reckoner.Canonical.Ignores` — conditions on which the signs put in by others have no influence;
* `Reckoner.Canonical.impliesProduct` — the three places for a sign.

Main results:

* `Reckoner.Canonical.insertTimes_insertTimes` — two passes are one;
* `Reckoner.Canonical.insertProducts_eq` — **implied products are found in one pass**;
* `Reckoner.Canonical.insertProducts_insertProducts` — a second pass finds none;
* `Reckoner.normalize_normalize` — **canonical text without macros is canonical**.
-/

import Reckoner.Proofs.Markup

set_option autoImplicit false

namespace Reckoner

namespace Canonical

open Text (isLatinLetter isDecimalDigit)

variable {p q : Char → List Char → Bool} {s t : List Char} {c : Char}

/-! ### Two passes -/

/-- A sign is wanted neither behind a sign nor in front of one, and the signs put in by `q` have no
influence on where it is wanted. -/
structure Ignores (wants q : Char → List Char → Bool) : Prop where
  behind : ∀ r, wants '*' r = false
  before : ∀ c r, wants c ('*' :: r) = false
  past : ∀ c r, wants c (insertTimes q r) = wants c r

/-- **Two passes are one**, when the second ignores the signs of the first. -/
theorem insertTimes_insertTimes (h : Ignores p q) (t : List Char) :
    insertTimes p (insertTimes q t) = insertTimes (fun c r => q c r || p c r) t := by
  induction t with
  | nil => rfl
  | cons c t ih =>
      cases hq : q c t with
      | true => simp [insertTimes, hq, h.before, h.behind, ih]
      | false =>
          simp only [insertTimes, hq, Bool.false_eq_true, if_false, h.past, Bool.false_or]
          split <;> rw [ih]

theorem Ignores.or {wants wants' : Char → List Char → Bool} (h : Ignores wants q)
    (h' : Ignores wants' q) : Ignores (fun c r => wants c r || wants' c r) q where
  behind r := by simp [h.behind, h'.behind]
  before c r := by simp [h.before, h'.before]
  past c r := by simp [h.past, h'.past]

/-! ### The three places -/

/-- No sign is put in behind a letter. -/
def SparesLetters (q : Char → List Char → Bool) : Prop :=
  ∀ c r, isLatinLetter c = true → q c r = false

theorem SparesLetters.or (hp : SparesLetters p) (hq : SparesLetters q) :
    SparesLetters fun c r => p c r || q c r := by
  intro c r hc
  simp [hp c r hc, hq c r hc]

theorem not_digit_or_close_of_isLatinLetter (hc : isLatinLetter c = true) :
    isDecimalDigit c = false ∧ (c == ')') = false := by
  constructor
  · exact Text.isDecimalDigit_of_isLetter (by simp [Text.isLetter, hc])
  · rw [beq_eq_false_iff_ne]
    rintro rfl
    exact absurd hc (by decide)

theorem sparesLetters_digitThenLetter : SparesLetters digitThenLetter := by
  intro c r hc
  simp [digitThenLetter, (not_digit_or_close_of_isLatinLetter hc).1]

theorem sparesLetters_closeThenOpen : SparesLetters closeThenOpen := by
  intro c r hc
  simp [closeThenOpen, (not_digit_or_close_of_isLatinLetter hc).2]

theorem sparesLetters_closeThenName : SparesLetters closeThenName := by
  intro c r hc
  simp [closeThenName, (not_digit_or_close_of_isLatinLetter hc).2]

/-- What follows a run of letters stays the same. -/
theorem SparesLetters.head?_dropWhile (hq : SparesLetters q) (t : List Char) :
    ((insertTimes q t).dropWhile isLatinLetter).head? = (t.dropWhile isLatinLetter).head? := by
  induction t with
  | nil => rfl
  | cons c t ih =>
      cases hc : isLatinLetter c with
      | true => simpa [insertTimes, hq c t hc, hc] using ih
      | false =>
          rw [insertTimes]
          split <;> simp [hc]

theorem ignores_digitThenLetter (q : Char → List Char → Bool) : Ignores digitThenLetter q where
  behind r := by
    have : isDecimalDigit '*' = false := by decide
    simp [digitThenLetter, this]
  before c r := by
    have : isLatinLetter '*' = false := by decide
    simp [digitThenLetter, this]
  past c r := by rw [digitThenLetter, digitThenLetter, head?_insertTimes]

theorem ignores_closeThenOpen (q : Char → List Char → Bool) : Ignores closeThenOpen q where
  behind r := by simp [closeThenOpen]
  before c r := by simp [closeThenOpen]
  past c r := by rw [closeThenOpen, closeThenOpen, head?_insertTimes]

theorem ignores_closeThenName (hq : SparesLetters q) : Ignores closeThenName q where
  behind r := by simp [closeThenName]
  before c r := by
    have : isLatinLetter '*' = false := by decide
    simp [closeThenName, this]
  past c r := by
    rw [closeThenName, closeThenName, head?_insertTimes, bne, bne, hq.head?_dropWhile]

/-- A digit in front of a letter, a closing bracket in front of an opening one, or a closing bracket
in front of a name that is no function call. -/
def impliesProduct (c : Char) (r : List Char) : Bool :=
  digitThenLetter c r || closeThenOpen c r || closeThenName c r

/-- **Implied products are found in one pass.** -/
theorem insertProducts_eq (t : List Char) : insertProducts t = insertTimes impliesProduct t := by
  have hspares := sparesLetters_digitThenLetter.or sparesLetters_closeThenOpen
  rw [insertProducts, insertTimes_insertTimes (ignores_closeThenOpen _),
    insertTimes_insertTimes (ignores_closeThenName hspares)]
  rfl

/-- A second pass finds no implied products. -/
theorem insertProducts_insertProducts (t : List Char) :
    insertProducts (insertProducts t) = insertProducts t := by
  have hspares : SparesLetters impliesProduct :=
    (sparesLetters_digitThenLetter.or sparesLetters_closeThenOpen).or sparesLetters_closeThenName
  have hignores : Ignores impliesProduct impliesProduct :=
    ((ignores_digitThenLetter _).or (ignores_closeThenOpen _)).or (ignores_closeThenName hspares)
  rw [insertProducts_eq, insertProducts_eq, insertTimes_insertTimes hignores]
  simp only [Bool.or_self]

/-- Nothing but signs is put in. -/
theorem mem_insertTimes (h : c ∈ insertTimes q t) : c ∈ t ∨ c = '*' := by
  induction t with
  | nil => simp [insertTimes] at h
  | cons d t ih =>
      rw [insertTimes] at h
      split at h <;> simp only [List.mem_cons] at h ⊢ <;> tauto

/-! ### Canonical text -/

/-- Without a backslash only the braces are dropped in front of the last step. -/
theorem normalizeChars_of_ne_backslash (h : ∀ c ∈ t, c ≠ '\\') :
    normalizeChars t = insertProducts (dropBraces t) := by
  have hnames : dropOperatorNames t = t := by
    have := replaceWith_append (fun cs => operatorName?_of_after?) (avoids_of_forall h) []
    simpa [dropOperatorNames, Text.replaceWith] using this
  have hmacros : plainMacros t = t := by simpa [plainMacros] using plainMacros_of_forall h []
  have habsolutes : replaceAbsolutes t = t := by
    have := replaceWith_append (fun cs => absolute?_of_after?) (avoids_of_forall h) []
    simpa [replaceAbsolutes, Text.replaceWith] using this
  have htable : replaceMacros t = t := by
    simpa using replaceMacros_source (known_characters h)
  rw [normalizeChars, hnames, hmacros, habsolutes, htable]

/-- A canonical text has no braces. -/
theorem dropBraces_normalizeChars (t : List Char) :
    dropBraces (normalizeChars t) = normalizeChars t := by
  refine dropBraces_eq_self fun c hc => ?_
  rw [normalizeChars, insertProducts_eq] at hc
  rcases mem_insertTimes hc with hc | rfl
  · simpa using (List.mem_filter.1 hc).2
  · decide

/-- Without a macro left, a canonical text is its own canonical text. -/
theorem normalizeChars_normalizeChars (h : ∀ c ∈ normalizeChars t, c ≠ '\\') :
    normalizeChars (normalizeChars t) = normalizeChars t := by
  rw [normalizeChars_of_ne_backslash h, dropBraces_normalizeChars, normalizeChars,
    insertProducts_insertProducts]

/-- No step puts in a backslash where there was none. -/
theorem ne_backslash_of_mem_normalizeChars (h : ∀ c ∈ t, c ≠ '\\') :
    ∀ c ∈ normalizeChars t, c ≠ '\\' := by
  intro c hc
  rw [normalizeChars_of_ne_backslash h, insertProducts_eq] at hc
  rcases mem_insertTimes hc with hc | rfl
  · exact h c (List.mem_filter.1 hc).1
  · decide

end Canonical

/-- **Canonical text without macros is canonical**, and so is what any text without backslashes is
brought to. -/
theorem normalize_normalize (raw : String) :
    ('\\' ∉ (normalize raw).toList → normalize (normalize raw) = normalize raw) ∧
      ('\\' ∉ raw.toList → normalize (normalize raw) = normalize raw) := by
  have hstep (h : ∀ c ∈ Canonical.normalizeChars raw.toList, c ≠ '\\') :
      normalize (normalize raw) = normalize raw := by
    rw [normalize, normalize, String.toList_ofList, Canonical.normalizeChars_normalizeChars h]
  constructor
  · intro h
    rw [normalize, String.toList_ofList] at h
    exact hstep fun c hc heq => h (heq ▸ hc)
  · intro h
    have hraw : ∀ c ∈ raw.toList, c ≠ '\\' := fun c hc heq => h (heq ▸ hc)
    exact hstep (Canonical.ne_backslash_of_mem_normalizeChars hraw)

/-- A text whose macros are all known, and one of overlapping places with braces that do not
match. -/
theorem normalize_normalize_overlaps :
    let known := "\\frac\x7b2x\x7d\x7by\x7d(z)\\sin(x)"
    let plain := "2x3y)(\x7b)(ab(c)de)f\x7d\x7d"
    normalize known = "(2*x)/(y)*(z)sin(x)" ∧
      normalize (normalize known) = normalize known ∧
      normalize plain = "2*x3*y)*()*(ab(c)*de)*f" ∧
      normalize (normalize plain) = normalize plain := by
  intro known plain
  have hknown : normalize known = "(2*x)/(y)*(z)sin(x)" := by decide
  refine ⟨hknown, ?_, by decide, ?_⟩
  · exact (normalize_normalize known).1 (by rw [hknown]; decide)
  · exact (normalize_normalize plain).2 (by decide)

end Reckoner
