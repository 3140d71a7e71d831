/-
**Names in any script.**

A name is a letter with letters, numeric characters and underscores behind it.  Before a text is
taken for a name the reader looks for a seam in it, and the scanner for seams tells only three kinds
of its characters apart: letters with underscores, the ten digits of ASCII, and all others, behind
which an operand begins anew.  A numeric character of another kind, a superscript or a digit of
another script, is one of the others.  Digits behind it are then taken for a number, and a letter
behind those for the next factor.  This is the one way in which a name is divided.

Main definitions:

* `Reckoner.Text.isOtherNumeric` — numeric characters that are no digits of ASCII;
* `Reckoner.Notation.AfterName` — what may have been read behind the characters of a name;
* `Reckoner.Notation.HasStrayDigits` — texts with digits between such a character and a letter.

Main results:

* `Reckoner.Notation.lastSeam?_eq_none_iff` — a text has no seam when no operand begins at a
  character of it that does not go on with what has been read;
* `Reckoner.Notation.AfterName.next`, `Reckoner.Notation.run_named` — **one character of a name
  more, and all of them**;
* `Reckoner.Notation.lastSeam?_eq_none_iff_of_isIdentifier` — the seams of a name;
* `Reckoner.Notation.shape_of_isIdentifier` — a name is divided at a seam or not at all;
* `Reckoner.Expr.parse_identifier_iff` — **a name is read as one variable exactly when it has no
  stray digits**.
-/

import Reckoner.Proofs.BalancedParts

set_option autoImplicit false

namespace Reckoner

/-! ### Characters -/

namespace Text

variable {c : Char}

/-- A numeric character that is neither a letter nor a digit of ASCII. -/
def isOtherNumeric (c : Char) : Bool := isAlphanumeric c && !isLetter c && !c.isDigit

/-- The characters of a name are letters and underscores, digits, and other numeric characters. -/
theorem isNameChar_cases (h : isNameChar c = true) :
    (isLetter c = true ∨ c = '_') ∨ c.isDigit = true ∨ isOtherNumeric c = true := by
  by_cases hl : isLetter c = true
  · exact .inl (.inl hl)
  · by_cases hd : c.isDigit = true
    · exact .inr (.inl hd)
    · rw [isNameChar, Bool.or_eq_true, beq_iff_eq] at h
      rcases h with h | h
      · exact .inr (.inr (by simp [isOtherNumeric, h, hl, hd]))
      · exact .inl (.inr h)

theorem exists_range_of_isOtherNumeric (h : isOtherNumeric c = true) :
    ∃ r ∈ decimalDigitRanges ++ otherNumberRanges, r.1 ≤ c.toNat ∧ c.toNat ≤ r.2 := by
  have hranges : inRanges (decimalDigitRanges ++ otherNumberRanges) c = true := by
    simp only [isOtherNumeric, isAlphanumeric, Bool.and_eq_true, Bool.or_eq_true,
      Bool.not_eq_true'] at h
    obtain ⟨⟨((hl | hd) | hdecimal) | hother, hletter⟩, hdigit⟩ := h
    · simp [hl] at hletter
    · simp [hd] at hdigit
    · rw [inRanges, List.any_append, Bool.or_eq_true]
      exact .inl hdecimal
    · rw [inRanges, List.any_append, Bool.or_eq_true]
      exact .inr hother
  exact inRanges_iff.1 hranges

set_option maxRecDepth 2000 in
theorem numericRanges_ge :
    ∀ r ∈ decimalDigitRanges ++ otherNumberRanges, r = (0x30, 0x39) ∨ 0x80 ≤ r.1 := by
  decide

/-- The other numeric characters are outside ASCII. -/
theorem toNat_of_isOtherNumeric (h : isOtherNumeric c = true) : 0x80 ≤ c.toNat := by
  obtain ⟨r, hr, hfirst, hlast⟩ := exists_range_of_isOtherNumeric h
  rcases numericRanges_ge r hr with rfl | hge
  · have hdigit : c.isDigit = true := by
      simpa [Char.isDigit, UInt32.le_iff_toNat_le] using And.intro hfirst hlast
    simp [isOtherNumeric, hdigit] at h
  · exact hge.trans hfirst

set_option maxRecDepth 2000 in
theorem numericRanges_blankRanges :
    ∀ b ∈ blankRanges, ∀ r ∈ decimalDigitRanges ++ otherNumberRanges, b.2 < r.1 ∨ r.2 < b.1 := by
  decide

theorem isBlank_of_isOtherNumeric (h : isOtherNumeric c = true) : isBlank c = false := by
  rw [Bool.eq_false_iff, Ne, isBlank, inRanges_iff]
  rintro ⟨b, hb, hfirst, hlast⟩
  obtain ⟨r, hr, hfirst', hlast'⟩ := exists_range_of_isOtherNumeric h
  have := numericRanges_blankRanges b hb r hr
  omega

theorem isNameChar_of_isDigit (h : c.isDigit = true) : isNameChar c = true := by
  simp [isNameChar, isAlphanumeric, h]

/-- A character of a name is not blank. -/
theorem isBlank_of_isNameChar (h : isNameChar c = true) : isBlank c = false := by
  rcases isNameChar_cases h with (hl | rfl) | hd | hother
  · exact isBlank_of_isLetter hl
  · exact isBlank_of_visible (by decide) (by decide)
  · have := toNat_of_isDigit hd
    exact isBlank_of_visible (by omega) (by omega)
  · exact isBlank_of_isOtherNumeric hother

/-- They are no letters. -/
theorem not_isLetter_of_isOtherNumeric (h : isOtherNumeric c = true) : isLetter c = false := by
  simp only [isOtherNumeric, Bool.and_eq_true, Bool.not_eq_true'] at h
  exact h.1.2

/-- A character of a name is none of the delimiters. -/
theorem ne_of_isNameChar {d : Char} (hc : isNameChar c = true) (hd : isDelimiter d = true) :
    c ≠ d := by
  rintro rfl
  rw [not_isNameChar_of_isDelimiter hd] at hc
  exact Bool.noConfusion hc

end Text

namespace Notation

open Text (isBlank isLetter isNameChar isOtherNumeric trim cut?)

variable {κ : Type} [Number κ] {x : Seam} {b : Option Operand} {c d : Char}
  {l r s t ds : List Char}

/-! ### Seams -/

/-- **A text has no seam** when no operand begins at a character of it that does not go on with what
has been read. -/
theorem lastSeam?_eq_none_iff :
    lastSeam? x t = none ↔ ∀ l c r, t = l ++ c :: r → (x.run l).splitsAt c = false := by
  constructor
  · rintro h l c r rfl
    rw [Bool.eq_false_iff]
    intro hsplits
    rw [lastSeam?_append] at h
    cases hrest : lastSeam? (x.run l) (c :: r) with
    | some p => simp [hrest] at h
    | none =>
        simp only [lastSeam?, hsplits, if_true] at hrest
        split at hrest <;> cases hrest
  · intro h
    rw [Option.eq_none_iff_forall_ne_some]
    rintro ⟨l, r⟩ hsome
    obtain ⟨c, w, rfl, hsplits⟩ := splitsAt_of_lastSeam? hsome
    rw [h l c w (lastSeam?_eq hsome).1] at hsplits
    exact Bool.noConfusion hsplits

/-- The kind of operand that a character of a name belongs to. -/
theorem operandOf?_letter (h : isLetter c = true ∨ c = '_') :
    operandOf? c = some .identifier := by
  have hopen : c ≠ '(' := by
    rintro rfl
    simp [Text.isLetter_of_lt] at h
  rcases h with h | rfl
  · simp [operandOf?, hopen, h]
  · simp [operandOf?]

theorem operandOf?_digit (h : c.isDigit = true) : operandOf? c = some .number := by
  have hopen : c ≠ '(' := by
    rintro rfl
    exact absurd h (by decide)
  have hunder : c ≠ '_' := by
    rintro rfl
    exact absurd h (by decide)
  simp [operandOf?, hopen, hunder, Text.isLetter_of_isDigit h, h]

theorem operandOf?_otherNumeric (h : isOtherNumeric c = true) : operandOf? c = none := by
  have hge := Text.toNat_of_isOtherNumeric h
  have hascii {d : Char} (hd : d.toNat < 0x80) : c ≠ d := by
    rintro rfl
    omega
  have hopen : c ≠ '(' := hascii (by decide)
  have hunder : c ≠ '_' := hascii (by decide)
  have hpoint : c ≠ '.' := hascii (by decide)
  simp only [isOtherNumeric, Bool.and_eq_true, Bool.not_eq_true'] at h
  obtain ⟨⟨-, hletter⟩, hdigit⟩ := h
  simp [operandOf?, hopen, hunder, hpoint, hletter, hdigit]

/-! ### Behind the characters of a name -/

/-- What has been read behind a name and some characters of names more: the name goes on, until a
numeric character of another script ends it; digits behind that one are a number. -/
inductive AfterName : List Char → Option Operand → Prop
  | named {t : List Char} : AfterName t (some .identifier)
  | ended {t : List Char} {d : Char} (hd : isOtherNumeric d = true) : AfterName (t ++ [d]) none
  | digits {t ds : List Char} {d : Char} (hd : isOtherNumeric d = true) (hne : ds ≠ [])
      (hds : ∀ e ∈ ds, e.isDigit = true) : AfterName (t ++ d :: ds) (some .number)

/-- **One character more.** -/
theorem AfterName.next (h : AfterName t b) (hc : isNameChar c = true) :
    ∃ b', Seam.next ⟨0, b, false⟩ c = ⟨0, b', false⟩ ∧ AfterName (t ++ [c]) b' := by
  have hblank := Text.isBlank_of_isNameChar hc
  have hopen : c ≠ '(' := Text.ne_of_isNameChar hc (by decide)
  rcases Text.isNameChar_cases hc with hl | hd | hother
  · refine ⟨some .identifier, ?_, .named⟩
    simp [Seam.next, hblank, operandOf?_letter hl, hopen]
  · have hkind := operandOf?_digit hd
    cases h with
    | named =>
        refine ⟨some .identifier, ?_, .named⟩
        simp [Seam.next, hblank, hkind, hopen, Seam.continues]
    | @ended t d hother =>
        refine ⟨some .number, ?_, ?_⟩
        · simp [Seam.next, hblank, hkind, hopen, Seam.continues]
        · rw [List.append_assoc]
          exact .digits hother (by simp) (by simpa using hd)
    | @digits t ds d hother hne hds =>
        refine ⟨some .number, ?_, ?_⟩
        · simp [Seam.next, hblank, hkind, hopen, Seam.continues]
        · rw [List.append_assoc, List.cons_append]
          refine .digits hother (by simp) ?_
          intro e he
          rcases List.mem_append.1 he with he | he
          · exact hds e he
          · rw [List.mem_singleton.1 he]
            exact hd
  · refine ⟨none, ?_, .ended hother⟩
    simp [Seam.next, hblank, operandOf?_otherNumeric hother]

/-- **What has been read behind the characters of a name.** -/
theorem run_named (ht : ∀ c ∈ t, isNameChar c = true) :
    ∃ b, Seam.run ⟨0, some .identifier, false⟩ t = ⟨0, b, false⟩ ∧ AfterName t b := by
  induction t using List.reverseRecOn with
  | nil => exact ⟨_, rfl, .named⟩
  | append_singleton t c ih =>
      obtain ⟨ht, hc⟩ := List.forall_mem_append.1 ht
      obtain ⟨b, hrun, hb⟩ := ih ht
      obtain ⟨b', hnext, hb'⟩ := hb.next (hc c (List.mem_singleton_self c))
      refine ⟨b', ?_, hb'⟩
      rw [Seam.run_append, hrun, Seam.run_cons, hnext, Seam.run_nil]

/-- Behind such characters an operand begins anew at a letter that follows a number. -/
theorem AfterName.splitsAt_iff (h : AfterName t b) (hc : isNameChar c = true) :
    Seam.splitsAt ⟨0, b, false⟩ c = true ↔
      b = some .number ∧ (isLetter c = true ∨ c = '_') := by
  have hblank := Text.isBlank_of_isNameChar hc
  rcases Text.isNameChar_cases hc with hl | hd | hother
  · cases h <;> simp [Seam.splitsAt, hblank, operandOf?_letter hl, Seam.continues, hl]
  · have hletter := Text.isLetter_of_isDigit hd
    have hunder : c ≠ '_' := by
      rintro rfl
      exact absurd hd (by decide)
    cases h <;> simp [Seam.splitsAt, hblank, operandOf?_digit hd, Seam.continues, hletter, hunder]
  · have hletter := Text.not_isLetter_of_isOtherNumeric hother
    have hunder : c ≠ '_' := by
      rintro rfl
      exact absurd (Text.toNat_of_isOtherNumeric hother) (by decide)
    simp [Seam.splitsAt, operandOf?_otherNumeric hother, hletter, hunder]

/-! ### Stray digits -/

/-- A text has stray digits when digits of ASCII stand in it between a numeric character of another
kind and a letter or underscore. -/
def HasStrayDigits (t : List Char) : Prop :=
  ∃ s d ds c r, t = s ++ d :: (ds ++ c :: r) ∧ isOtherNumeric d = true ∧ ds ≠ [] ∧
    (∀ e ∈ ds, e.isDigit = true) ∧ (isLetter c = true ∨ c = '_')

/-- They need digits of both kinds. -/
theorem HasStrayDigits.mixed (h : HasStrayDigits t) :
    (∃ d ∈ t, isOtherNumeric d = true) ∧ ∃ e ∈ t, e.isDigit = true := by
  obtain ⟨s, d, ds, c, r, rfl, hd, hne, hds, -⟩ := h
  obtain ⟨e, ds, rfl⟩ := List.exists_cons_of_ne_nil hne
  exact ⟨⟨d, by simp, hd⟩, e, by simp, hds e List.mem_cons_self⟩

/-- The first letter of a name. -/
theorem next_letter (h : isLetter c = true) :
    Seam.next {} c = ⟨0, some .identifier, false⟩ := by
  have hopen : c ≠ '(' := Text.ne_of_isNameChar (Text.isNameChar_of_isLetter h) (by decide)
  simp [Seam.next, Text.isBlank_of_isLetter h, operandOf?_letter (.inl h), hopen]

theorem run_digits (h : ∀ e ∈ ds, e.isDigit = true) :
    Seam.run ⟨0, some .number, false⟩ ds = ⟨0, some .number, false⟩ := by
  induction ds with
  | nil => rfl
  | cons e ds ih =>
      obtain ⟨he, hds⟩ := List.forall_mem_cons.1 h
      have hblank := Text.isBlank_of_isNameChar (Text.isNameChar_of_isDigit he)
      have hopen : e ≠ '(' := by
        rintro rfl
        exact absurd he (by decide)
      have hnext : Seam.next ⟨0, some .number, false⟩ e = ⟨0, some .number, false⟩ := by
        simp [Seam.next, hblank, operandOf?_digit he, hopen, Seam.continues]
      rw [Seam.run_cons, hnext, ih hds]

/-- Behind a numeric character of another kind, digits are a number. -/
theorem run_strayDigits (hd : isOtherNumeric d = true) (hne : ds ≠ [])
    (hds : ∀ e ∈ ds, e.isDigit = true) :
    Seam.run ⟨0, b, false⟩ (d :: ds) = ⟨0, some .number, false⟩ := by
  obtain ⟨e, ds, rfl⟩ := List.exists_cons_of_ne_nil hne
  obtain ⟨he, hds⟩ := List.forall_mem_cons.1 hds
  have hopen : e ≠ '(' := by
    rintro rfl
    exact absurd he (by decide)
  have hreset : Seam.next ⟨0, b, false⟩ d = {} := by
    simp [Seam.next, Text.isBlank_of_isOtherNumeric hd, operandOf?_otherNumeric hd]
  have hstart : Seam.next {} e = ⟨0, some .number, false⟩ := by
    have hblank := Text.isBlank_of_isNameChar (Text.isNameChar_of_isDigit he)
    simp [Seam.next, hblank, operandOf?_digit he, hopen, Seam.continues]
  rw [Seam.run_cons, hreset, Seam.run_cons, hstart, run_digits hds]

/-- **The seams of a name.** -/
theorem lastSeam?_eq_none_iff_of_isIdentifier (h : isIdentifier t = true) :
    lastSeam? {} t = none ↔ ¬HasStrayDigits t := by
  obtain ⟨first, rest, rfl, hfirst, hrest⟩ := Text.isIdentifier_iff.1 h
  rw [lastSeam?_eq_none_iff]
  constructor
  · rintro hnone ⟨s, d, ds, c, r, heq, hd, hne, hds, hc⟩
    -- a name does not begin with the numeric character
    obtain ⟨s, rfl, rfl⟩ : ∃ s', s = first :: s' ∧ rest = s' ++ d :: (ds ++ c :: r) := by
      cases s with
      | nil =>
          obtain ⟨rfl, -⟩ := List.cons.inj heq
          rw [Text.not_isLetter_of_isOtherNumeric hd] at hfirst
          exact Bool.noConfusion hfirst
      | cons e s =>
          obtain ⟨rfl, hrest⟩ := List.cons.inj heq
          exact ⟨s, rfl, hrest⟩
    obtain ⟨b, hrun, -⟩ := run_named (t := s) fun c hc => hrest c (List.mem_append_left _ hc)
    have hname : Seam.run {} (first :: s) = ⟨0, b, false⟩ := by
      rw [Seam.run_cons, next_letter hfirst, hrun]
    have hsplits : (Seam.run {} (first :: s ++ d :: ds)).splitsAt c = true := by
      rw [Seam.run_append, hname, run_strayDigits hd hne hds]
      have hchar : isNameChar c = true := hrest c (by simp)
      simp [Seam.splitsAt, Text.isBlank_of_isNameChar hchar, operandOf?_letter hc, Seam.continues]
    rw [hnone (first :: s ++ d :: ds) c r (by simp)] at hsplits
    exact Bool.noConfusion hsplits
  · rintro hno l c r heq
    rw [Bool.eq_false_iff]
    intro hsplits
    cases l with
    | nil =>
        rw [Seam.run_nil, Seam.splitsAt] at hsplits
        simp [Seam.continues] at hsplits
    | cons first' l =>
        obtain ⟨rfl, rfl⟩ := List.cons.inj heq
        obtain ⟨b, hrun, hb⟩ := run_named (t := l) fun c hc => hrest c (List.mem_append_left _ hc)
        rw [Seam.run_cons, next_letter hfirst, hrun, hb.splitsAt_iff (hrest c (by simp))] at hsplits
        obtain ⟨rfl, hc⟩ := hsplits
        cases hb with
        | @digits p ds d hd hne hds =>
            exact hno ⟨first :: p, d, ds, c, r, by simp, hd, hne, hds, hc⟩

/-! ### Names as a whole -/

theorem isDelimiter_of_isOperator (h : isOperator c = true) : Text.isDelimiter c = true := by
  rcases mem_operators h with rfl | rfl | rfl | rfl | rfl <;> rfl

section Names

variable (h : isIdentifier t = true)
include h

theorem solid_of_isIdentifier : Solid t := by
  have hchars := Text.isNameChar_of_mem h
  constructor
  · obtain ⟨c, rest, rfl, hc, -⟩ := Text.isIdentifier_iff.1 h
    exact ⟨c, rest, rfl, Text.isBlank_of_isLetter hc⟩
  · have hne : t ≠ [] := by
      rintro rfl
      exact Bool.noConfusion h
    refine ⟨t.dropLast, t.getLast hne, (List.dropLast_append_getLast hne).symm, ?_⟩
    exact Text.isBlank_of_isNameChar (hchars _ (List.getLast_mem hne))

/-- No bracket and no operator is in a name. -/
theorem ne_of_isIdentifier (hd : Text.isDelimiter d = true) : ∀ c ∈ t, c ≠ d :=
  fun c hc => Text.ne_of_isNameChar (Text.isNameChar_of_mem h c hc) hd

theorem nesting_of_isIdentifier : ∀ c ∈ t, nesting c = 0 := fun c hc =>
  nesting_eq_zero_iff.2
    ⟨ne_of_isIdentifier h (by decide) c hc, ne_of_isIdentifier h (by decide) c hc⟩

/-- **A name is divided at a seam or not at all.** -/
theorem shape_of_isIdentifier : shape t = match lastSeam? {} t with
    | some (l, r) => .product l r
    | none => .identifier := by
  have hnesting := nesting_of_isIdentifier h
  have operators {ops : Char → Bool} (hops : ∀ c, ops c = true → isOperator c = true) :
      lastOperator? ops 0 none t = none := by
    refine lastOperator?_of_forall (fun c hc => ⟨hnesting c hc, ?_⟩) 0 none
    rw [Bool.eq_false_iff]
    intro ho
    exact ne_of_isIdentifier h (isDelimiter_of_isOperator (hops c ho)) c hc rfl
  have hadd := operators fun _ => isOperator_of_additive
  have hmul := operators fun _ => isOperator_of_multiplicative
  have hcaret : firstOutside? '^' 0 t = none := by
    have := firstOutside?_of_forall
      (fun c hc => ⟨hnesting c hc, ne_of_isIdentifier h (d := '^') (by decide) c hc⟩) []
    rwa [List.append_nil] at this
  have hcall : callShape? t = none := by
    have := cut?_append (ne_of_isIdentifier h (d := '(') (by decide)) []
    rw [List.append_nil] at this
    simp [callShape?, this, cut?]
  have hfactor : factorShape? t = (lastSeam? {} t).map fun p => .product p.1 p.2 := by
    rw [factorShape?, hmul]
  obtain ⟨c, rest, rfl, hc, -⟩ := Text.isIdentifier_iff.1 h
  have hhead {d : Char} (hd : Text.isDelimiter d = true) : c ≠ d :=
    Text.ne_of_isNameChar (Text.isNameChar_of_isLetter hc) hd
  have hatom : atomShape (c :: rest) = .identifier := by
    have hdigit : c.isDigit = false := by
      rw [Bool.eq_false_iff]
      intro hd
      rw [Text.isLetter_of_isDigit hd] at hc
      exact Bool.noConfusion hc
    have hpoint : c ≠ '.' := by
      rintro rfl
      rw [Text.isLetter_of_lt (by decide)] at hc
      exact Bool.noConfusion hc
    have hnumeral : isNumeral (c :: rest) = false := by simp [isNumeral, hdigit, hpoint]
    rw [atomShape_unsigned (hhead (by decide)) (hhead (by decide)), hcaret, hcall, hnumeral, h]
    rfl
  have henclosed : enclosed? (c :: rest) = none :=
    enclosed?_of_head fun r heq => hhead (by decide) (List.cons.inj heq).1
  rw [shape_of_not_enclosed (by simp) (nested_of_forall hnesting).balanced henclosed, hadd,
    hfactor, hatom]
  cases lastSeam? {} (c :: rest) <;> rfl

/-- A name with a seam is read as a product, and one without as a variable. -/
theorem parse_of_isIdentifier : (parse t : Except ParseError (Expr κ)) =
    match lastSeam? {} t with
    | some (l, r) => do return .mul (← parse l) (← parse r)
    | none => .ok (.var (String.ofList t)) := by
  rw [parse_eq, (solid_of_isIdentifier h).trim_eq, shape_of_isIdentifier h]
  cases lastSeam? {} t <;> rfl

end Names

omit [Number κ] in
theorem product_ne_var (a b : Except ParseError (Expr κ)) (x : String) :
    (do return .mul (← a) (← b) : Except ParseError (Expr κ)) ≠ .ok (.var x) := by
  cases a with
  | error e => simp [bind, Except.bind]
  | ok a => cases b <;> simp [bind, Except.bind, pure, Except.pure]

end Notation

section Strings

open Notation

variable {κ : Type} [Number κ]

/-- **A name is read as one variable exactly when it has no stray digits.** -/
theorem Expr.parse_identifier_iff {x : String} (h : isIdentifier x.toList = true) :
    (Expr.parse x : Except ParseError (Expr κ)) = .ok (.var x) ↔ ¬HasStrayDigits x.toList := by
  rw [← lastSeam?_eq_none_iff_of_isIdentifier h, Expr.parse, parse_of_isIdentifier h]
  cases lastSeam? {} x.toList with
  | none => simp
  | some p => simpa using product_ne_var _ _ x

set_option maxRecDepth 2000 in
/-- Superscripts without other digits are part of a name. -/
theorem Expr.parse_identifier_iff_superscript :
    isIdentifier "größe²_b".toList = true ∧
      (Expr.parse "größe²_b" : Except ParseError (Expr Float)) = .ok (.var "größe²_b") := by
  have hname : isIdentifier "größe²_b".toList = true := by decide
  have hdigit : "größe²_b".toList.any Char.isDigit = false := by decide
  refine ⟨hname, (parse_identifier_iff hname).2 fun hstray => ?_⟩
  obtain ⟨-, e, he, hd⟩ := hstray.mixed
  rw [List.any_eq_false] at hdigit
  exact hdigit e he hd

set_option maxRecDepth 2000 in
/-- Behind the Arabic digit two, the digit `2` begins a number, and the letter behind that one is a
second factor. -/
theorem Expr.parse_identifier_twoDigits :
    isIdentifier "x\u06622y".toList = true ∧
      (Expr.parse "x\u06622y" : Except ParseError (Expr Float)) =
        .ok (.mul (.var "x\u06622") (.var "y")) := by
  have hname : isIdentifier "x\u06622y".toList = true := by decide
  have hfront : isIdentifier "x\u06622".toList = true := by decide
  have hseam : lastSeam? {} "x\u06622y".toList = some ("x\u06622".toList, "y".toList) := by
    decide
  have hnone : lastSeam? {} "x\u06622".toList = none := by decide
  refine ⟨hname, ?_⟩
  rw [Expr.parse, parse_of_isIdentifier hname, hseam]
  dsimp only
  rw [parse_of_isIdentifier hfront, hnone, parse_of_isIdentifier (t := "y".toList) (by decide)]
  rfl

end Strings

end Reckoner
