/-
**Operands with any content.**

Operators and seams are looked for outside brackets, so that what stands inside of them is of no
account: a group, or a call, is one operand whatever text it holds, as long as the brackets of that
text match.  The grammar does not say so, since it knows a group by the derivation of its content.
What the scanners see of an operand is stated here for the text alone, with a level of the grammar
that tells which operators it shows.  Derivations are operands in this sense, and so are groups and
calls around texts that no derivation writes down.

The signs of implied products are put in piece by piece in the same way, since none of them depends
on what stands on the other side of a bracket.

Main definitions:

* `Reckoner.Notation.AtLevel` — what the scanners see of an operand of a level;
* `Reckoner.Canonical.Unmarked` — texts without backslashes and braces.

Main results:

* `Reckoner.Notation.Spells.atLevel`, `Reckoner.Notation.atLevel_group`,
  `Reckoner.Notation.atLevel_call` — derivations, groups and calls are operands;
* `Reckoner.Notation.AtLevel.parse_quotient`, `Reckoner.Notation.AtLevel.parse_power` —
  **operands are divided at the operator between them**;
* `Reckoner.Notation.parse_group`, `Reckoner.Notation.parse_call` — the content of a bracket is
  read by itself;
* `Reckoner.Canonical.insertProducts_group` — implied products are found in it by itself.
-/

import Reckoner.Proofs.BracedExponent

set_option autoImplicit false

namespace Reckoner

namespace Notation

open Text (isBlank isLetter trim cut?)

variable {κ : Type} [Number κ] {k l l' : Level} {s t r : List Char} {c o : Char}

/-! ### Names -/

/-- A letter of any script, then letters, digits and underscores of ASCII. -/
def isMixedName : List Char → Bool
  | [] => false
  | c :: cs => isLetter c && cs.all fun d => d.isAlphanum || d == '_'

theorem isMixedName_iff : isMixedName t = true ↔
    ∃ c r, t = c :: r ∧ isLetter c = true ∧ ∀ d ∈ r, d.isAlphanum = true ∨ d = '_' := by
  cases t with
  | nil => simp [isMixedName]
  | cons c r => simp [isMixedName]

/-- A character of such a name. -/
theorem letter_or_wordChar_of_mem (h : isMixedName t = true) :
    ∀ c ∈ t, isLetter c = true ∨ isWordChar c = true := by
  obtain ⟨c, r, rfl, hc, hr⟩ := isMixedName_iff.1 h
  intro d hd
  rcases List.mem_cons.1 hd with rfl | hd
  · exact .inl hc
  · rcases hr d hd with hd | rfl
    · exact .inr (by simp [isWordChar, hd])
    · exact .inr (by decide)

/-- The operators, the brackets and the comma are no characters of a name. -/
theorem ne_of_letter_or_wordChar (h : isLetter c = true ∨ isWordChar c = true)
    (ho : o ∈ ['+', '-', '*', '/', '^', '(', ')', ',']) : c ≠ o := by
  have hno : isLetter o = false ∧ isWordChar o = false := by
    simp only [List.mem_cons, List.not_mem_nil, or_false] at ho
    rcases ho with rfl | rfl | rfl | rfl | rfl | rfl | rfl | rfl <;> decide +kernel
  rintro rfl
  simp [hno] at h

theorem nesting_of_letter_or_wordChar (h : isLetter c = true ∨ isWordChar c = true) :
    nesting c = 0 :=
  nesting_eq_zero_iff.2
    ⟨ne_of_letter_or_wordChar h (by decide), ne_of_letter_or_wordChar h (by decide)⟩

theorem isOperator_of_letter_or_wordChar (h : isLetter c = true ∨ isWordChar c = true) :
    isOperator c = false := by
  rw [Bool.eq_false_iff]
  intro ho
  rcases mem_operators ho with rfl | rfl | rfl | rfl | rfl <;>
    exact ne_of_letter_or_wordChar h (by decide) rfl

theorem isBlank_of_letter_or_wordChar (h : isLetter c = true ∨ isWordChar c = true) :
    isBlank c = false := by
  rcases h with h | h
  · exact Text.isBlank_of_isLetter h
  · exact isBlank_of_isWordChar h

theorem isSignAfter_of_letter_or_wordChar (h : isLetter c = true ∨ isWordChar c = true) :
    isSignAfter (some c) = false := by
  rw [Bool.eq_false_iff]
  intro hc
  simp only [isSignAfter, List.contains_eq_mem, List.mem_cons, List.not_mem_nil, or_false,
    decide_eq_true_eq] at hc
  rcases hc with rfl | rfl | rfl | rfl | rfl | rfl | rfl <;>
    exact ne_of_letter_or_wordChar h (by decide) rfl

theorem isIdentifier_of_isMixedName (h : isMixedName t = true) : isIdentifier t = true := by
  obtain ⟨c, r, rfl, hc, hr⟩ := isMixedName_iff.1 h
  refine Text.isIdentifier_iff.2 ⟨c, r, rfl, hc, ?_⟩
  intro d hd
  rcases hr d hd with hd | rfl
  · simp only [Char.isAlphanum, Bool.or_eq_true] at hd
    rcases hd with hd | hd <;>
      simp [Text.isNameChar, Text.isAlphanumeric, isLetter, Text.isLatinLetter, hd]
  · simp [Text.isNameChar]

theorem isNumeral_of_isMixedName (h : isMixedName t = true) : isNumeral t = false := by
  obtain ⟨c, r, rfl, hc, -⟩ := isMixedName_iff.1 h
  have hdigit : c.isDigit = false := by
    rw [Bool.eq_false_iff]
    intro hd
    rw [Text.isLetter_of_isDigit hd] at hc
    simp at hc
  have hpoint : c ≠ '.' := by
    rintro rfl
    rw [Text.isLetter_of_lt (by decide)] at hc
    simp at hc
  simp [isNumeral, hdigit, hpoint]

/-- No operands meet inside a name. -/
theorem lastSeam?_mixedName (h : isMixedName t = true) :
    lastSeam? {} t = none ∧ Seam.run {} t = ⟨0, some .identifier, false⟩ := by
  obtain ⟨c, r, rfl, hc, hr⟩ := isMixedName_iff.1 h
  have hopen : c ≠ '(' := ne_of_letter_or_wordChar (.inl hc) (by decide)
  have hkind : operandOf? c = some .identifier := by simp [operandOf?, hopen, hc]
  have hnext : Seam.next {} c = ⟨0, some .identifier, false⟩ := by
    simp [Seam.next, Text.isBlank_of_isLetter hc, hkind, hopen]
  obtain ⟨hnone, hrun⟩ := lastSeam?_name_rest hr
  rw [lastSeam?, Seam.run_cons, hnext, hnone]
  exact ⟨by simp [Seam.splitsAt, hkind, Seam.continues], hrun⟩

/-! ### Operands -/

/-- What the scanners see of an operand of a level, whatever its brackets hold. -/
structure AtLevel (l : Level) (t : List Char) : Prop extends Seamless t where
  /-- The brackets match. -/
  nested : Nested t
  /-- There is no blank in front, and below the level of signs no sign. -/
  first : ∃ c r, t = c :: r ∧ isBlank c = false ∧ (l.rank ≤ 1 → c ≠ '+' ∧ c ≠ '-')
  /-- There is no blank behind, and a plus or minus there is an operator. -/
  last : ∃ r c, t = r ++ [c] ∧ isBlank c = false ∧ isSignAfter (some c) = false
  /-- Outside brackets there are only operators of the level and of tighter ones. -/
  operators : ∀ {ops : Char → Bool} {before : Option Char},
    (∀ c, ops c = true → isOperator c = true) → (∀ c ∈ l.operators, ops c = false) →
      isSignAfter before = true → lastOperator? ops 0 before t = none
  /-- An atom shows no power. -/
  caret : l = .atom → ∀ r, firstOutside? '^' 0 (t ++ r) =
    (firstOutside? '^' 0 r).map fun p => (t ++ p.1, p.2)

/-- A derivation is an operand of its level. -/
theorem Spells.atLevel {e : Expr κ} (h : Spells l t e) : AtLevel l t where
  toSeamless := h.seamless
  nested := h.nested
  first := h.first
  last := h.last
  operators := h.lastOperator?_eq_none
  caret := by
    rintro rfl
    exact h.firstOutside?_caret

theorem Level.mem_operators_of_rank_le (h : l.rank ≤ k.rank) :
    ∀ c ∈ l.operators, c ∈ k.operators := by
  cases l <;> cases k <;> simp_all [Level.rank, Level.operators]

theorem AtLevel.loosen (h : AtLevel l t) (hl : l.rank ≤ k.rank) : AtLevel k t where
  toSeamless := h.toSeamless
  nested := h.nested
  first := by
    obtain ⟨c, r, rfl, hc, hsign⟩ := h.first
    exact ⟨c, r, rfl, hc, fun hk => hsign (by omega)⟩
  last := h.last
  operators := fun hops hk =>
    h.operators hops fun c hc => hk c (Level.mem_operators_of_rank_le hl c hc)
  caret := by
    rintro rfl
    refine h.caret ?_
    cases l <;> simp_all [Level.rank]

/-- A group is an operand, whatever it holds. -/
theorem atLevel_group (ht : Nested t) : AtLevel .atom ('(' :: (t ++ [')'])) := by
  obtain ⟨hseam, hdepth⟩ := lastSeam?_group (x := {}) ht rfl (.inl rfl)
  constructor
  case toSeamless => exact ⟨hseam, hdepth⟩
  case nested => exact .group ht .nil
  case first => exact ⟨'(', _, rfl, by decide, fun _ => by decide⟩
  case last => exact ⟨'(' :: t, ')', rfl, by decide, by decide⟩
  case operators =>
    intro ops before _ _ _
    exact lastOperator?_group ht ops before
  case caret =>
    intro _ r
    rw [List.cons_append, List.append_assoc, List.cons_append, firstOutside?_group ht]
    simp

theorem nested_name (h : isMixedName t = true) : Nested t :=
  nested_of_forall fun c hc => nesting_of_letter_or_wordChar (letter_or_wordChar_of_mem h c hc)

theorem lastOperator?_name (h : isMixedName t = true) {ops : Char → Bool} {before : Option Char}
    (hops : ∀ c, ops c = true → isOperator c = true) : lastOperator? ops 0 before t = none := by
  refine lastOperator?_of_forall ?_ 0 before
  intro c hc
  have hchar := letter_or_wordChar_of_mem h c hc
  refine ⟨nesting_of_letter_or_wordChar hchar, ?_⟩
  rw [Bool.eq_false_iff]
  intro ho
  have := hops c ho
  rw [isOperator_of_letter_or_wordChar hchar] at this
  simp at this

theorem firstOutside?_name (h : isMixedName t = true) (r : List Char) :
    firstOutside? '^' 0 (t ++ r) = (firstOutside? '^' 0 r).map fun p => (t ++ p.1, p.2) := by
  refine firstOutside?_of_forall ?_ r
  intro c hc
  have hchar := letter_or_wordChar_of_mem h c hc
  exact ⟨nesting_of_letter_or_wordChar hchar, ne_of_letter_or_wordChar hchar (by decide)⟩

/-- A name starts like an operand, with or without a bracket behind it. -/
theorem first_name (h : isMixedName t = true) (r : List Char) :
    ∃ c r', t ++ r = c :: r' ∧ isBlank c = false ∧ (l.rank ≤ 1 → c ≠ '+' ∧ c ≠ '-') := by
  obtain ⟨c, r', rfl, hc, -⟩ := isMixedName_iff.1 h
  refine ⟨c, r' ++ r, rfl, Text.isBlank_of_isLetter hc, fun _ => ⟨?_, ?_⟩⟩
  · exact ne_of_letter_or_wordChar (.inl hc) (by decide)
  · exact ne_of_letter_or_wordChar (.inl hc) (by decide)

theorem atLevel_name (h : isMixedName t = true) : AtLevel .atom t := by
  obtain ⟨hseam, hrun⟩ := lastSeam?_mixedName h
  have hne : t ≠ [] := by
    rintro rfl
    simp [isMixedName] at h
  constructor
  case toSeamless => exact ⟨hseam, by rw [hrun]⟩
  case nested => exact nested_name h
  case first => simpa using first_name h []
  case last =>
    have hchar := letter_or_wordChar_of_mem h _ (List.getLast_mem hne)
    exact ⟨t.dropLast, t.getLast hne, (List.dropLast_append_getLast hne).symm,
      isBlank_of_letter_or_wordChar hchar, isSignAfter_of_letter_or_wordChar hchar⟩
  case operators =>
    intro ops before hops _ _
    exact lastOperator?_name h hops
  case caret => exact fun _ => firstOutside?_name h

/-- A call is an operand, whatever its argument holds. -/
theorem atLevel_call (h : isMixedName s = true) (ht : Nested t) :
    AtLevel .atom (s ++ '(' :: (t ++ [')'])) := by
  obtain ⟨hseam, hrun⟩ := lastSeam?_mixedName h
  obtain ⟨hgroup, hdepth⟩ :=
    lastSeam?_group (x := ⟨0, some .identifier, false⟩) ht rfl (.inr rfl)
  constructor
  case toSeamless =>
    refine ⟨lastSeam?_append_none hseam ?_, ?_⟩
    · rwa [hrun]
    · rwa [Seam.run_append, hrun]
  case nested => exact (nested_name h).append (.group ht .nil)
  case first => exact first_name h _
  case last => exact ⟨s ++ '(' :: t, ')', by simp, by decide, by decide⟩
  case operators =>
    intro ops before hops _ _
    exact (nested_name h).lastOperator?_append_none (lastOperator?_name h hops)
      (lastOperator?_group ht ops _)
  case caret =>
    intro _ r
    rw [List.append_assoc, firstOutside?_name h, List.cons_append, List.append_assoc,
      List.cons_append, firstOutside?_group ht]
    simp [Function.comp_def]

namespace AtLevel

theorem ne_nil (h : AtLevel l t) : t ≠ [] := by
  obtain ⟨c, r, rfl, -⟩ := h.first
  simp

theorem solid (h : AtLevel l t) : Solid t where
  first := by
    obtain ⟨c, r, hfirst, hc, -⟩ := h.first
    exact ⟨c, r, hfirst, hc⟩
  last := by
    obtain ⟨r, c, hlast, hc, -⟩ := h.last
    exact ⟨r, c, hlast, hc⟩

/-- There are no blanks at the ends of an operand. -/
theorem trim_eq (h : AtLevel l t) : trim t = t := h.solid.trim_eq

/-- Behind an operand a plus or minus is an operator. -/
theorem isSignAfter_eq_false (h : AtLevel l t) (before : Option Char) :
    isSignAfter (lastSeen before t) = false := by
  obtain ⟨r, c, rfl, hc, hsign⟩ := h.last
  rw [lastSeen_append, lastSeen_cons, hc]
  exact hsign

/-- Two operands and an operator between them are an operand of the level of that operator. -/
theorem joined (hs : AtLevel l s) (ht : AtLevel l' t) (ho : o ∈ k.operators)
    (hl : ∀ c ∈ l.operators, c ∈ k.operators) (hl' : ∀ c ∈ l'.operators, c ∈ k.operators)
    (hsign : k.rank ≤ 1 → l.rank ≤ 1) : AtLevel k (s ++ o :: t) := by
  have hop : isOperator o = true := by
    cases k <;> simp_all [Level.operators, isOperator]
  constructor
  case toSeamless =>
    have := hs.toSeamless.joined (w := []) (u := []) blanks_nil hop blanks_nil ht.toSeamless
    simpa using this
  case nested => exact hs.nested.append (.char (nesting_of_isOperator hop) ht.nested)
  case first =>
    obtain ⟨c, r, rfl, hc, hfirst⟩ := hs.first
    exact ⟨c, r ++ o :: t, rfl, hc, fun hk => hfirst (hsign hk)⟩
  case last =>
    obtain ⟨r, c, rfl, hc, hlast⟩ := ht.last
    exact ⟨s ++ o :: r, c, by simp, hc, hlast⟩
  case operators =>
    intro ops before hops hk hb
    have hleft : lastOperator? ops 0 before s = none :=
      hs.operators hops (fun c hc => hk c (hl c hc)) hb
    refine hs.nested.lastOperator?_append_none hleft ?_
    refine lastOperator?_cons_none (nesting_of_isOperator hop) (isBlank_of_isOperator hop) ?_ ?_
    · simp [hk o ho]
    · exact ht.operators hops (fun c hc => hk c (hl' c hc)) (isSignAfter_of_isOperator hop)
  case caret =>
    rintro rfl
    simp [Level.operators] at ho

theorem quotient (hs : AtLevel .product s) (ht : AtLevel .signed t) :
    AtLevel .product (s ++ '/' :: t) :=
  hs.joined ht (by decide) (by simp [Level.operators]) (by simp [Level.operators]) (by decide)

theorem power (hs : AtLevel .atom s) (ht : AtLevel .signed t) : AtLevel .power (s ++ '^' :: t) :=
  hs.joined ht (by decide) (by simp [Level.operators]) (by simp [Level.operators]) (by decide)

/-! ### Reading -/

/-- An operand without a plus or minus is a product or an atom. -/
theorem shape_eq (h : AtLevel l t) (hl : l.rank ≤ 3) (he : enclosed? t = none) :
    shape t = (factorShape? t).getD (atomShape t) := by
  have hops : lastOperator? (fun c => c == '+' || c == '-') 0 none t = none := by
    refine h.operators (fun _ => isOperator_of_additive) ?_ rfl
    cases l <;> simp_all [Level.operators, Level.rank]
  rw [shape_of_not_enclosed h.ne_nil h.nested.balanced he, hops]

/-- Below the level of products there is no place to divide. -/
theorem shape_eq_atomShape (h : AtLevel l t) (hl : l.rank ≤ 1) (he : enclosed? t = none) :
    shape t = match firstOutside? '^' 0 t with
      | some (base, exponent) => .power base exponent
      | none =>
          match callShape? t with
          | some s => s
          | none =>
              if isNumeral t then .numeral
              else if isIdentifier t then .identifier
              else .other := by
  have hops : lastOperator? (fun c => c == '*' || c == '/') 0 none t = none := by
    refine h.operators (fun _ => isOperator_of_multiplicative) ?_ rfl
    cases l <;> simp_all [Level.operators, Level.rank]
  have hfactor : factorShape? t = none := by simp [factorShape?, hops, h.seam]
  rw [h.shape_eq (by omega) he, hfactor]
  obtain ⟨c, r, rfl, -, hsign⟩ := h.first
  obtain ⟨hplus, hminus⟩ := hsign hl
  exact atomShape_unsigned hminus hplus r

/-- **A quotient is divided at its last sign**, whatever the operands hold in brackets. -/
theorem parse_quotient (hs : AtLevel .product s) (ht : AtLevel .signed t) :
    (parse (s ++ '/' :: t) : Except ParseError (Expr κ)) =
      do return .div (← parse s) (← parse t) := by
  have hwhole := hs.quotient ht
  have he : enclosed? (s ++ '/' :: t) = none := enclosed?_append hs.nested hs.ne_nil (by simp)
  have hright : lastOperator? (fun c => c == '*' || c == '/') 0 (some '/') t = none :=
    ht.operators (fun _ => isOperator_of_multiplicative) (by simp [Level.operators]) rfl
  have hhere : lastOperator? (fun c => c == '*' || c == '/') 0 (lastSeen none s) ('/' :: t) =
      some ([], '/', t) := by
    have hblank : isBlank '/' = false := by decide
    simp [lastOperator?, nesting, hblank, hright, hs.isSignAfter_eq_false]
  have hops : lastOperator? (fun c => c == '*' || c == '/') 0 none (s ++ '/' :: t) =
      some (s, '/', t) := by
    rw [lastOperator?_append, hs.nested.nestingOf_eq, add_zero, hhere]
    simp
  have hfactor : factorShape? (s ++ '/' :: t) = some (.quotient s t) := by
    simp [factorShape?, hops, hwhole.seam]
  rw [parse_eq, hwhole.trim_eq, hwhole.shape_eq (by decide) he, hfactor]
  rfl

/-- **A power is divided at its first `^`**, whatever the operands hold in brackets. -/
theorem parse_power (hs : AtLevel .atom s) (ht : AtLevel .signed t) :
    (parse (s ++ '^' :: t) : Except ParseError (Expr κ)) =
      do return .pow (← parse s) (← parse t) := by
  have hwhole := hs.power ht
  have he : enclosed? (s ++ '^' :: t) = none := enclosed?_append hs.nested hs.ne_nil (by simp)
  have hfirst : firstOutside? '^' 0 (s ++ '^' :: t) = some (s, t) := by
    rw [hs.caret rfl]
    simp [firstOutside?, nesting]
  rw [parse_eq, hwhole.trim_eq, hwhole.shape_eq_atomShape (by decide) he, hfirst]
  rfl

end AtLevel

/-- The content of a group is read by itself. -/
theorem parse_group (ht : Nested t) :
    (parse ('(' :: (t ++ [')'])) : Except ParseError (Expr κ)) = parse t := by
  rw [parse_eq, (atLevel_group ht).trim_eq, shape_group ht]
  rfl

theorem enclosed?_name (h : isMixedName s = true) (r : List Char) : enclosed? (s ++ r) = none := by
  obtain ⟨c, s, rfl, hc, -⟩ := isMixedName_iff.1 h
  exact enclosed?_of_nesting (nesting_of_letter_or_wordChar (.inl hc)) _

theorem cut?_name (h : isMixedName s = true) (r : List Char) :
    cut? '(' (s ++ r) = (cut? '(' r).map fun p => (s ++ p.1, p.2) := by
  refine cut?_append (fun c hc => ?_) r
  exact ne_of_letter_or_wordChar (letter_or_wordChar_of_mem h c hc) (by decide)

/-- A name is read as one variable. -/
theorem parse_name (h : isMixedName t = true) :
    (parse t : Except ParseError (Expr κ)) = .ok (.var (String.ofList t)) := by
  have hop := atLevel_name h
  have he : enclosed? t = none := by simpa using enclosed?_name h []
  have hcaret : firstOutside? '^' 0 t = none := by simpa [firstOutside?] using hop.caret rfl []
  have hcut : cut? '(' t = none := by simpa [cut?] using cut?_name h []
  have hcall : callShape? t = none := by rw [callShape?, hcut]
  rw [parse_eq, hop.trim_eq, hop.shape_eq_atomShape (by decide) he, hcaret]
  simp [hcall, isNumeral_of_isMixedName h, isIdentifier_of_isMixedName h, readShape]

/-- **A name with a bracket behind it is the call of a function**, and the argument is read by
itself. -/
theorem parse_call (h : isMixedName s = true) (ht : Nested t) :
    (parse (s ++ '(' :: (t ++ [')'])) : Except ParseError (Expr κ)) =
      (do parseCall s (← parse t)) := by
  have hop := atLevel_call h ht
  have hcaret : firstOutside? '^' 0 (s ++ '(' :: (t ++ [')'])) = none := by
    simpa [firstOutside?] using hop.caret rfl []
  have hcut : cut? '(' (s ++ '(' :: (t ++ [')'])) = some (s, t ++ [')']) := by
    rw [cut?_name h]
    simp [cut?]
  have hcall : callShape? (s ++ '(' :: (t ++ [')'])) = some (.call s t) := by
    simp only [callShape?, hcut, ht.closing?_close, (atLevel_name h).trim_eq,
      isIdentifier_of_isMixedName h, if_true]
  rw [parse_eq, hop.trim_eq, hop.shape_eq_atomShape (by decide) (enclosed?_name h _), hcaret, hcall]
  rfl

/-- A text is what is left of it without the blanks around it, between these. -/
theorem exists_trim (t : List Char) : ∃ u v, Blanks u ∧ Blanks v ∧ t = u ++ trim t ++ v := by
  let m := t.dropWhile isBlank
  refine ⟨t.takeWhile isBlank, (m.reverse.takeWhile isBlank).reverse, ?_, ?_, ?_⟩
  · exact fun c hc => List.mem_takeWhile_imp hc
  · exact fun c hc => List.mem_takeWhile_imp (List.mem_reverse.1 hc)
  · have hright : trim t ++ (m.reverse.takeWhile isBlank).reverse = m := by
      rw [trim, Text.trimRight, Text.trimLeft, ← List.reverse_append,
        List.takeWhile_append_dropWhile, List.reverse_reverse]
    rw [List.append_assoc, hright, List.takeWhile_append_dropWhile]

/-- The brackets of what is read match. -/
theorem nested_of_parse {e : Expr κ} (h : parse t = .ok e) : Nested t := by
  obtain ⟨u, v, hu, hv, ht⟩ := exists_trim t
  obtain ⟨-, hb⟩ := balanced_of_parse h
  rw [ht]
  exact hu.nested_between hv (nested_of_balanced hb)

/-! ### Brackets -/

theorem atLevel_parenthesized (h : Nested t) : AtLevel .atom (Canonical.parenthesized t) :=
  atLevel_group h

theorem parse_parenthesized {e : Expr κ} (h : parse t = .ok e) :
    parse (Canonical.parenthesized t) = .ok e := by
  rw [← h]
  exact parse_group (nested_of_parse h)

end Notation

/-! ### Implied products -/

namespace Canonical

open Text (isLatinLetter)

variable {s t r : List Char} {c : Char}

/-- A text without backslashes and braces. -/
def Unmarked (t : List Char) : Prop := ∀ c ∈ t, c ≠ '\\' ∧ c ≠ '\x7b' ∧ c ≠ '\x7d'

instance (t : List Char) : Decidable (Unmarked t) :=
  decidable_of_iff (t.all fun c => c ≠ '\\' ∧ c ≠ '\x7b' ∧ c ≠ '\x7d') (by simp [Unmarked])

theorem Unmarked.append (hs : Unmarked s) (ht : Unmarked t) : Unmarked (s ++ t) := by
  intro c hc
  rcases List.mem_append.1 hc with hc | hc
  · exact hs c hc
  · exact ht c hc

theorem Unmarked.writes (ht : Unmarked t) : Writes t t := .text ht

theorem Unmarked.normalizeChars (ht : Unmarked t) : normalizeChars t = insertProducts t :=
  ht.writes.normalizeChars

theorem Unmarked.ne_backslash (ht : Unmarked t) : ∀ c ∈ t, c ≠ '\\' := fun c hc => (ht c hc).1

theorem Unmarked.parenthesized (ht : Unmarked t) : Unmarked (parenthesized t) := by
  have bracket {c : Char} (hc : c ≠ '\\' ∧ c ≠ '\x7b' ∧ c ≠ '\x7d') : Unmarked [c] := by
    simpa [Unmarked] using hc
  exact (bracket (c := '(') (by decide)).append (ht.append (bracket (c := ')') (by decide)))

/-- A text that begins with neither a letter nor an opening bracket. -/
def Breaks (r : List Char) : Prop := ∀ d ∈ r.head?, isLatinLetter d = false ∧ d ≠ '('

theorem Breaks.insertTimes (hr : Breaks r) (wants : Char → List Char → Bool) :
    Breaks (insertTimes wants r) := by
  rwa [Breaks, head?_insertTimes]

theorem Breaks.any_head?_append (hr : Breaks r) (s : List Char) :
    (s ++ r).head?.any isLatinLetter = s.head?.any isLatinLetter := by
  cases s with
  | cons d s => rfl
  | nil =>
      cases r with
      | nil => rfl
      | cons d r => simpa using (hr d rfl).1

theorem Breaks.open_head?_append (hr : Breaks r) (s : List Char) :
    ((s ++ r).head? == some '(') = (s.head? == some '(') := by
  cases s with
  | cons d s => rfl
  | nil =>
      cases r with
      | nil => rfl
      | cons d r => simpa using (hr d rfl).2

/-- A run of letters ends where the text does. -/
theorem Breaks.dropWhile_append (hr : Breaks r) (s : List Char) :
    (((s ++ r).dropWhile isLatinLetter).head? == some '(') =
      ((s.dropWhile isLatinLetter).head? == some '(') := by
  induction s with
  | nil =>
      cases r with
      | nil => rfl
      | cons d r => simpa [(hr d rfl).1] using (hr d rfl).2
  | cons d s ih =>
      cases hd : isLatinLetter d with
      | true => simpa [hd] using ih
      | false => simp [hd]

/-- Where signs are wanted in a text does not depend on what follows it. -/
theorem insertTimes_append_of_eq (wants : Char → List Char → Bool)
    (hwants : ∀ c s, wants c (s ++ r) = wants c s) (s : List Char) :
    insertTimes wants (s ++ r) = insertTimes wants s ++ insertTimes wants r := by
  induction s with
  | nil => rfl
  | cons c s ih =>
      rw [List.cons_append, insertTimes, insertTimes, hwants, ih]
      split <;> rfl

/-- A text in front of a break has its implied products by itself. -/
theorem Breaks.insertProducts_append (hr : Breaks r) (s : List Char) :
    insertProducts (s ++ r) = insertProducts s ++ insertProducts r := by
  have hr₁ := hr.insertTimes digitThenLetter
  have hr₂ := hr₁.insertTimes closeThenOpen
  have hnumbers := insertTimes_append_of_eq digitThenLetter
    (fun c s => by rw [digitThenLetter, digitThenLetter, hr.any_head?_append]) s
  have hgroups := insertTimes_append_of_eq closeThenOpen
    (fun c s => by rw [closeThenOpen, closeThenOpen, hr₁.open_head?_append])
    (Canonical.insertTimes digitThenLetter s)
  have hnames := insertTimes_append_of_eq closeThenName
    (fun c s => by
      rw [closeThenName, closeThenName, hr₂.any_head?_append, bne, bne, hr₂.dropWhile_append])
    (Canonical.insertTimes closeThenOpen (Canonical.insertTimes digitThenLetter s))
  rw [insertProducts, hnumbers, hgroups, hnames]
  rfl

/-- Behind a separator implied products are found anew. -/
theorem insertProducts_separator (hs : Explicit s) (hc : isSeparator c = true) (r : List Char) :
    insertProducts (s ++ c :: r) = s ++ c :: insertProducts r := by
  have hfront : Explicit (s ++ [c] ++ r.head?.toList) := by
    have hhead : Explicit r.head?.toList := by
      cases r with
      | nil => exact .nil
      | cons d r => exact List.isChain_singleton d
    simpa using hs.joined hc hhead
  simpa using Canonical.insertProducts_append hfront

theorem isSeparator_of_mem_head? (hc : isSeparator c = true) (r : List Char) :
    ∀ d ∈ (c :: r).head?, isSeparator d = true := by
  intro d hd
  obtain rfl := Option.some.inj hd
  exact hc

/-- **Implied products are found in a bracket by itself**, in front of the end or a separator. -/
theorem insertProducts_group (hr : ∀ d ∈ r.head?, isSeparator d = true) (s : List Char) :
    insertProducts (parenthesized s ++ r) =
      parenthesized (insertProducts s) ++ insertProducts r := by
  have hopen : Explicit (['('] ++ (s ++ ')' :: r).head?.toList) := by
    have hapart : ∀ d, apart '(' d = true := apart_of_left (by decide) (by decide)
    cases (s ++ ')' :: r).head? with
    | none => exact List.isChain_singleton _
    | some d => exact List.isChain_cons.2 ⟨by simpa using hapart d, List.isChain_singleton _⟩
  have hclose : Explicit ([')'] ++ r.head?.toList) := by
    cases hd : r.head? with
    | none => exact List.isChain_singleton _
    | some d =>
        have hapart := (apart_of_isSeparator (hr d hd) ')').2
        exact List.isChain_cons.2 ⟨by simpa using hapart, List.isChain_singleton _⟩
  have hbreaks : Breaks (')' :: r) := by
    intro d hd
    obtain rfl := Option.some.inj hd
    decide
  have hfront := Canonical.insertProducts_append hopen
  have hbehind := Canonical.insertProducts_append hclose
  rw [List.singleton_append] at hfront hbehind
  have htext : parenthesized s ++ r = '(' :: (s ++ ')' :: r) := by simp [parenthesized]
  rw [htext, hfront, hbreaks.insertProducts_append, hbehind]
  simp [parenthesized]

end Canonical

end Reckoner
