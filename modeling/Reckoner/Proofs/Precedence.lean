/-
**The reader follows the grammar.**

The reader divides a text at the place that its scanners find, and reads the two sides by
themselves.  On a text that writes down a derivation, the place is the operator of the last step of
the derivation, so that the tree which is read is the tree of the derivation.  In particular every
text of the grammar is read, and no text has two trees.

Main definitions:

* `Reckoner.Notation.Solid` — texts without blanks at their ends.

Main results:

* `Reckoner.Notation.Numeral.unsigned?_append` — digits with a power of ten make a number;
* `Reckoner.Notation.Numeral.read`, `Reckoner.Notation.Numeral.read_minus` — the numbers of the
  grammar are read by their digits, with or without a minus;
* `Reckoner.Notation.shape_additive`, `Reckoner.Notation.shape_multiplicative`,
  `Reckoner.Notation.shape_power` — **a derivation is divided at its last step**;
* `Reckoner.Notation.Spells.parse_padded` — blanks around a derivation do not matter;
* `Reckoner.Notation.Spells.parse_eq_ok` — a derivation is read as its tree;
* `Reckoner.Expr.parse_spelled` — **every text of the grammar is read as the tree of its
  derivation**;
* `Reckoner.Notation.Spells.tree_unique` — the grammar is unambiguous.
-/

import Mathlib.Data.List.TakeWhile
import Mathlib.Tactic
import Reckoner.Number.Binary64
import Reckoner.Proofs.Grammar

set_option autoImplicit false

namespace Reckoner

/-! ### Numbers -/

namespace Literal

variable {cs : List Char}

theorem toLower_of_lt {c : Char} (h : c.toNat < 0x41) : c.toLower = c := by
  have hlow : ¬(65 ≤ c.val) := by
    rw [UInt32.le_iff_toNat_le]
    change ¬0x41 ≤ c.toNat
    omega
  exact dif_neg fun h => hlow h.1

/-- Digits and points spell none of the words for special numbers. -/
theorem lower_ne_of_digits {word : String} (h : ∀ c ∈ cs, c.isDigit = true ∨ c = '.')
    (hn : 'n' ∈ word.toList) : (String.ofList (cs.map Char.toLower) == word) = false := by
  rw [beq_eq_false_iff_ne]
  rintro rfl
  rw [String.toList_ofList, List.mem_map] at hn
  obtain ⟨c, hc, hlower⟩ := hn
  have hlt : c.toNat < 0x41 := by
    rcases h c hc with hd | rfl
    · have := Text.toNat_of_isDigit hd
      omega
    · decide
  rw [toLower_of_lt hlt] at hlower
  rw [hlower] at hlt
  exact absurd hlt (by decide)

/-- A power of ten begins with an `e`. -/
theorem head_of_power? {k : ℤ} (h : power? cs = some k) :
    ∀ c ∈ cs.head?, c = 'e' ∨ c = 'E' := by
  cases cs with
  | nil => simp
  | cons c cs =>
      simp only [power?] at h
      split at h
      · rename_i hc
        simp only [Bool.and_eq_true, Bool.or_eq_true, beq_iff_eq] at hc
        simpa using hc.1.1
      · simp at h

/-- Without a sign in front, a number is read by its digits. -/
theorem read_digits (h : ∀ c ∈ cs, c.isDigit = true ∨ c = '.') :
    read cs = unsigned? false cs := by
  have hsign : sign cs = (false, cs) := by
    unfold sign
    split
    · exact absurd (h '-' List.mem_cons_self) (by decide)
    · exact absurd (h '+' List.mem_cons_self) (by decide)
    · rfl
  simp only [read, hsign, lower_ne_of_digits h (show 'n' ∈ "inf".toList by decide),
    lower_ne_of_digits h (show 'n' ∈ "infinity".toList by decide),
    lower_ne_of_digits h (show 'n' ∈ "nan".toList by decide)]
  rfl

theorem read_minus_digits (h : ∀ c ∈ cs, c.isDigit = true ∨ c = '.') :
    read ('-' :: cs) = unsigned? true cs := by
  simp only [read, sign, lower_ne_of_digits h (show 'n' ∈ "inf".toList by decide),
    lower_ne_of_digits h (show 'n' ∈ "infinity".toList by decide),
    lower_ne_of_digits h (show 'n' ∈ "nan".toList by decide)]
  rfl

end Literal

namespace Notation

open Text (isBlank trim cut?)

variable {κ : Type} [Number κ] {l : Level} {s t u v w : List Char} {a b e : Expr κ} {o : Char}

/-! ### The numbers of the grammar -/

/-- The digits of a number and a power of ten make a number. -/
theorem Numeral.unsigned?_append {n : ℕ} {p k : ℤ} (h : Numeral s n p)
    (ht : Literal.power? t = some k) (negative : Bool) :
    Literal.unsigned? negative (s ++ t) = some (.decimal negative n (k + p)) := by
  have hhead : ∀ c ∈ t.head?, c.isDigit = false := by
    intro c hc
    rcases Literal.head_of_power? ht c hc with rfl | rfl <;> rfl
  cases h with
  | whole hne hw =>
      obtain ⟨htake, hdrop⟩ := Text.takeWhile_append_of_head hw hhead
      have hpoint : ∀ r, t ≠ '.' :: r := by
        rintro r rfl
        rcases Literal.head_of_power? ht '.' rfl with h | h <;> exact absurd h (by decide)
      unfold Literal.unsigned?
      dsimp only
      rw [htake, hdrop]
      split
      · exact absurd rfl (hpoint _)
      · simp [hne, ht]
  | @pointed w f hne hw hf =>
      obtain ⟨htake, hdrop⟩ := Text.takeWhile_append_of_head hf hhead
      obtain ⟨htake', hdrop'⟩ :=
        Text.takeWhile_append_of_head (r := '.' :: (f ++ t)) hw (by simp)
      rw [List.append_assoc, List.cons_append]
      unfold Literal.unsigned?
      dsimp only
      simp only [htake', hdrop', htake, hdrop]
      rw [if_neg (by simpa using hne), ht]
      rfl

theorem Numeral.unsigned? {n : ℕ} {p : ℤ} (h : Numeral t n p) (negative : Bool) :
    Literal.unsigned? negative t = some (.decimal negative n p) := by
  simpa using h.unsigned?_append (t := []) rfl negative

/-- A number of the grammar is read by its digits. -/
theorem Numeral.read {n : ℕ} {p : ℤ} (h : Numeral t n p) :
    Literal.read t = some (.decimal false n p) := by
  rw [Literal.read_digits h.digit_or_point, h.unsigned?]

theorem Numeral.read_minus {n : ℕ} {p : ℤ} (h : Numeral t n p) :
    Literal.read ('-' :: t) = some (.decimal true n p) := by
  rw [Literal.read_minus_digits h.digit_or_point, h.unsigned?]

theorem Numeral.parseNumeral {n : ℕ} {p : ℤ} (h : Numeral t n p) :
    (Notation.parseNumeral t : Except ParseError (Expr κ)) =
      .ok (.const (Arithmetic.ofDecimal n p)) := by
  rw [Notation.parseNumeral, h.read]
  rfl

theorem Numeral.isNumeral {n : ℕ} {p : ℤ} (h : Numeral t n p) :
    Notation.isNumeral t = true := by
  simpa [Notation.isNumeral] using h.digit_or_point

/-! ### The division of a derivation -/

theorem Blanks.trimLeft_append (hu : Blanks u) (t : List Char) :
    Text.trimLeft (u ++ t) = Text.trimLeft t :=
  List.dropWhile_append_of_pos hu

theorem Blanks.trimRight_append (hv : Blanks v) (t : List Char) :
    Text.trimRight (t ++ v) = Text.trimRight t := by
  have hrev : ∀ c ∈ v.reverse, isBlank c = true := fun c hc => hv c (List.mem_reverse.1 hc)
  simp only [Text.trimRight, List.reverse_append, List.dropWhile_append_of_pos hrev]

/-- A text that is not empty and has no blanks at its ends. -/
structure Solid (t : List Char) : Prop where
  first : ∃ c r, t = c :: r ∧ isBlank c = false
  last : ∃ r c, t = r ++ [c] ∧ isBlank c = false

/-- The blanks around it are trimmed off, and nothing else is. -/
theorem Solid.trim_padded (h : Solid t) (hu : Blanks u) (hv : Blanks v) :
    trim (u ++ t ++ v) = t := by
  obtain ⟨c, r, hfirst, hc⟩ := h.first
  obtain ⟨r', d, hlast, hd⟩ := h.last
  have hleft : Text.trimLeft (t ++ v) = t ++ v := by
    rw [hfirst]
    simp [Text.trimLeft, hc]
  have hright : Text.trimRight t = t := by
    rw [hlast]
    simp [Text.trimRight, hd]
  rw [trim, List.append_assoc, hu.trimLeft_append, hleft, hv.trimRight_append, hright]

theorem Solid.trim_eq (h : Solid t) : trim t = t := by
  simpa using h.trim_padded blanks_nil blanks_nil

theorem Spells.solid (h : Spells l t e) : Solid t where
  first := by
    obtain ⟨c, r, hfirst, hc, -⟩ := h.first
    exact ⟨c, r, hfirst, hc⟩
  last := by
    obtain ⟨r, c, hlast, hc, -⟩ := h.last
    exact ⟨r, c, hlast, hc⟩

/-- Without the blanks around it, a derivation is left as it is. -/
theorem Spells.trim_padded (h : Spells l t e) (hu : Blanks u) (hv : Blanks v) :
    trim (u ++ t ++ v) = t :=
  h.solid.trim_padded hu hv

theorem Spells.trim_eq (h : Spells l t e) : trim t = t := h.solid.trim_eq

/-- A derivation that goes on behind its first operand is not in brackets as a whole. -/
theorem Spells.enclosed?_joined (hs : Spells l s a) (hw : Blanks w) (r : List Char) :
    enclosed? (s ++ w ++ o :: r) = none :=
  enclosed?_append (hs.nested.append hw.nested) (by simp [hs.ne_nil]) (by simp)

/-- A derivation that is not in brackets is divided at its last plus or minus. -/
theorem Spells.shape_of_some {p r : List Char} (h : Spells l t e) (he : enclosed? t = none)
    (hops : lastOperator? (fun c => c == '+' || c == '-') 0 none t = some (p, o, r)) :
    shape t = if o = '+' then .sum p r else .difference p r := by
  have hne : t.isEmpty = false := by simpa using h.ne_nil
  simp [shape, hne, h.nested.balanced, he, hops]

theorem Spells.shape_of_none (h : Spells l t e) (he : enclosed? t = none)
    (hops : lastOperator? (fun c => c == '+' || c == '-') 0 none t = none) :
    shape t = (factorShape? t).getD (atomShape t) := by
  have hne : t.isEmpty = false := by simpa using h.ne_nil
  simp [shape, hne, h.nested.balanced, he, hops]

/-- **A sum is divided at its last plus or minus.** -/
theorem shape_additive (hs : Spells .sum s a) (hw : Blanks w) (ho : o = '+' ∨ o = '-')
    (hu : Blanks u) (ht : Spells .product t b) (h : Spells l (s ++ w ++ o :: (u ++ t)) e) :
    shape (s ++ w ++ o :: (u ++ t)) =
      if o = '+' then .sum (s ++ w) (u ++ t) else .difference (s ++ w) (u ++ t) := by
  have hop : isOperator o = true := by rcases ho with rfl | rfl <;> rfl
  -- the operand on the right is a product, whose plus and minus signs are signs
  have hright : lastOperator? (fun c => c == '+' || c == '-') 0 (some o) (u ++ t) = none := by
    refine hu.lastOperator?_append_none (fun _ => isOperator_of_additive) ?_
    exact ht.lastOperator?_additive (by decide) (isSignAfter_of_isOperator hop)
  exact h.shape_of_some (hs.enclosed?_joined hw _)
    (hs.lastOperator?_joined hw hop (by simpa using ho) hright)

/-- **A product is divided at its last sign of multiplication or division.** -/
theorem shape_multiplicative (hs : Spells .product s a) (hw : Blanks w) (ho : o = '*' ∨ o = '/')
    (hu : Blanks u) (ht : Spells .signed t b)
    (h : Spells .product (s ++ w ++ o :: (u ++ t)) e) :
    shape (s ++ w ++ o :: (u ++ t)) =
      if o = '*' then .product (s ++ w) (u ++ t) else .quotient (s ++ w) (u ++ t) := by
  have hop : isOperator o = true := by rcases ho with rfl | rfl <;> rfl
  have hright : lastOperator? (fun c => c == '*' || c == '/') 0 (some o) (u ++ t) = none := by
    refine hu.lastOperator?_append_none (fun _ => isOperator_of_multiplicative) ?_
    exact ht.lastOperator?_multiplicative (by decide) (isSignAfter_of_isOperator hop)
  -- no seam competes with the operator
  have hfactor : factorShape? (s ++ w ++ o :: (u ++ t)) =
      some (if o = '*' then .product (s ++ w) (u ++ t) else .quotient (s ++ w) (u ++ t)) := by
    simp only [factorShape?, hs.lastOperator?_joined hw hop (by simpa using ho) hright,
      h.seamless.seam]
  rw [h.shape_of_none (hs.enclosed?_joined hw _) (h.lastOperator?_additive (by decide) rfl),
    hfactor]
  rfl

/-- Below the level of products nothing is divided at an operator or a seam. -/
theorem Spells.shape_eq_atomShape (h : Spells l t e) (hl : l.rank ≤ 2)
    (he : enclosed? t = none) : shape t = atomShape t := by
  have hfactor : factorShape? t = none := by
    have hops : lastOperator? (fun c => c == '*' || c == '/') 0 none t = none :=
      h.lastOperator?_multiplicative hl rfl
    simp [factorShape?, hops, h.seamless.seam]
  rw [h.shape_of_none he (h.lastOperator?_additive (by omega) rfl), hfactor]
  rfl

/-- Without a sign in front, a power is looked for first. -/
theorem atomShape_unsigned {c : Char} (hminus : c ≠ '-') (hplus : c ≠ '+') (r : List Char) :
    atomShape (c :: r) = match firstOutside? '^' 0 (c :: r) with
      | some (base, exponent) => .power base exponent
      | none =>
          match callShape? (c :: r) with
          | some s => s
          | none =>
              if isNumeral (c :: r) then .numeral
              else if isIdentifier (c :: r) then .identifier
              else .other := by
  unfold atomShape
  split
  · rename_i heq
    exact absurd (List.cons.inj heq).1 hminus
  · rename_i heq
    exact absurd (List.cons.inj heq).1 hplus
  · rfl

theorem Spells.atomShape_eq (h : Spells l t e) (hl : l.rank ≤ 1) : atomShape t =
    match firstOutside? '^' 0 t with
    | some (base, exponent) => .power base exponent
    | none =>
        match callShape? t with
        | some s => s
        | none =>
            if isNumeral t then .numeral
            else if isIdentifier t then .identifier
            else .other := by
  obtain ⟨c, r, rfl, -, hsign⟩ := h.first
  obtain ⟨hplus, hminus⟩ := hsign hl
  exact atomShape_unsigned hminus hplus r

/-- **A power is divided at its first `^`.** -/
theorem shape_power (hs : Spells .atom s a) (hw : Blanks w)
    (h : Spells .power (s ++ w ++ '^' :: (u ++ t)) e) :
    shape (s ++ w ++ '^' :: (u ++ t)) = .power (s ++ w) (u ++ t) := by
  have hfirst : firstOutside? '^' 0 (s ++ w ++ '^' :: (u ++ t)) = some (s ++ w, u ++ t) := by
    rw [List.append_assoc, hs.firstOutside?_caret, hw.firstOutside?_append (by decide)]
    simp [firstOutside?, nesting]
  rw [h.shape_eq_atomShape (by decide) (hs.enclosed?_joined hw _), h.atomShape_eq le_rfl, hfirst]

/-- An atom that is not in brackets is a call, a number or a name. -/
theorem Spells.shape_atom (h : Spells .atom t e) (he : enclosed? t = none) : shape t =
    match callShape? t with
    | some s => s
    | none =>
        if isNumeral t then .numeral
        else if isIdentifier t then .identifier
        else .other := by
  have hcaret : firstOutside? '^' 0 t = none := by
    have := h.firstOutside?_caret []
    rwa [List.append_nil] at this
  rw [h.shape_eq_atomShape (by decide) he, h.atomShape_eq (by decide), hcaret]

theorem cut?_append {d : Char} (h : ∀ c ∈ s, c ≠ d) (r : List Char) :
    cut? d (s ++ r) = (cut? d r).map fun p => (s ++ p.1, p.2) := by
  induction s with
  | nil => simp
  | cons c s ih =>
      obtain ⟨hc, hs⟩ := List.forall_mem_cons.1 h
      rw [List.cons_append, cut?, if_neg hc, ih hs]
      simp [Function.comp_def]

theorem Word.ne_open (h : Word t) : ∀ c ∈ t, c ≠ '(' :=
  fun c hc => ne_of_isWordChar (h.chars c hc) (by decide)

theorem Word.enclosed?_append (h : Word t) (r : List Char) : enclosed? (t ++ r) = none := by
  obtain ⟨c, r', rfl, hc⟩ := h.first
  refine enclosed?_of_head fun r'' heq => ?_
  exact ne_of_isWordChar hc (by decide) (List.cons.inj heq).1

/-- A word is a number or a name. -/
theorem Spells.shape_word (h : Spells .atom t e) (hword : Word t) :
    shape t = if isNumeral t then .numeral else if isIdentifier t then .identifier else .other := by
  have he : enclosed? t = none := by
    have := hword.enclosed?_append []
    rwa [List.append_nil] at this
  have hcut : cut? '(' t = none := by
    have := cut?_append hword.ne_open []
    rwa [List.append_nil] at this
  have hcall : callShape? t = none := by simp [callShape?, hcut]
  rw [h.shape_atom he, hcall]

/-- A function is divided from its argument. -/
theorem shape_call {x : String} (hx : isPlainName x.toList = true) (hw : Blanks w)
    (ht : Nested t) (h : Spells .atom (x.toList ++ w ++ '(' :: (t ++ [')'])) e) :
    shape (x.toList ++ w ++ '(' :: (t ++ [')'])) = .call x.toList t := by
  have hname := word_name hx
  have hopen : ∀ c ∈ x.toList ++ w, c ≠ '(' := by
    intro c hc
    rcases List.mem_append.1 hc with hc | hc
    · exact hname.ne_open c hc
    · exact hw.ne_of_mem hc (by decide)
  have hcut : cut? '(' (x.toList ++ w ++ '(' :: (t ++ [')'])) =
      some (x.toList ++ w, t ++ [')']) := by
    rw [cut?_append hopen]
    simp [cut?]
  have htrim : trim (x.toList ++ w) = x.toList :=
    (Spells.name (κ := κ) hx).trim_padded blanks_nil hw
  have hcall : callShape? (x.toList ++ w ++ '(' :: (t ++ [')'])) = some (.call x.toList t) := by
    simp only [callShape?, hcut, ht.closing?_close, htrim, isIdentifier_of_isPlainName hx, if_true]
  rw [h.shape_atom (by rw [List.append_assoc]; exact hname.enclosed?_append _), hcall]

theorem shape_group (ht : Nested t) : shape ('(' :: (t ++ [')'])) = .enclosed t := by
  have hbalanced : balanced ('(' :: (t ++ [')'])) = true := (Nested.group ht .nil).balanced
  simp [shape, hbalanced, enclosed?_group ht]

/-- A sign is taken off. -/
theorem shape_negative (h : Spells .signed ('-' :: t) e) : shape ('-' :: t) = .negative t := by
  rw [h.shape_eq_atomShape le_rfl (enclosed?_of_head fun r heq => by simp at heq)]
  rfl

theorem shape_positive (h : Spells .signed ('+' :: t) e) : shape ('+' :: t) = .positive t := by
  rw [h.shape_eq_atomShape le_rfl (enclosed?_of_head fun r heq => by simp at heq)]
  rfl

/-! ### The tree of a derivation -/

/-- The expression that a text of a given shape denotes. -/
def readShape (text : List Char) : Shape → Except ParseError (Expr κ)
  | .empty => .error .empty
  | .unbalanced => .error (.unbalanced (String.ofList text))
  | .enclosed e => parse e
  | .sum l r => do return .add (← parse l) (← parse r)
  | .difference l r => do return .sub (← parse l) (← parse r)
  | .product l r => do return .mul (← parse l) (← parse r)
  | .quotient l r => do return .div (← parse l) (← parse r)
  | .negative e => do return minus (← parse e)
  | .positive e => parse e
  | .power l r => do return .pow (← parse l) (← parse r)
  | .call name e => do parseCall name (← parse e)
  | .numeral => parseNumeral text
  | .identifier => .ok (.var (String.ofList text))
  | .other => .error (.invalidFormat (String.ofList text))

/-- The reader goes by the shape of the text without the blanks around it. -/
theorem parse_eq (text : List Char) : (parse text : Except ParseError (Expr κ)) =
    readShape (trim text) (shape (trim text)) := by
  rw [parse]
  split <;> rename_i h <;> rw [h] <;> rfl

/-- Blanks around a derivation do not matter. -/
theorem Spells.parse_padded (h : Spells l t e) (hu : Blanks u) (hv : Blanks v) :
    (parse (u ++ t ++ v) : Except ParseError (Expr κ)) = parse t := by
  rw [parse_eq, parse_eq t, h.trim_padded hu hv, h.trim_eq]

theorem Spells.parse_blanks_append (h : Spells l t e) (hu : Blanks u) :
    (parse (u ++ t) : Except ParseError (Expr κ)) = parse t := by
  simpa using h.parse_padded hu blanks_nil

theorem Spells.parse_append_blanks (h : Spells l t e) (hv : Blanks v) :
    (parse (t ++ v) : Except ParseError (Expr κ)) = parse t := by
  simpa using h.parse_padded blanks_nil hv

/-- A derivation without blanks around it is read by its shape. -/
theorem Spells.parse_eq_readShape (h : Spells l t e) :
    (parse t : Except ParseError (Expr κ)) = readShape t (shape t) := by
  rw [parse_eq, h.trim_eq]

theorem isNumeral_of_isPlainName (h : isPlainName t = true) : isNumeral t = false := by
  obtain ⟨c, r, rfl, hc, -⟩ := isPlainName_iff.1 h
  have hdigit : c.isDigit = false := by
    rw [Bool.eq_false_iff]
    intro hd
    have := Text.toNat_of_isAlpha hc
    have := Text.toNat_of_isDigit hd
    omega
  have hpoint : c ≠ '.' := by
    rintro rfl
    simp at hc
  simp [isNumeral, hdigit, hpoint]

/-- **A derivation is read as its tree.** -/
theorem Spells.parse_eq_ok (h : Spells l t e) : parse t = .ok e := by
  -- by induction over the derivation: its last step is the shape of its text, and the blanks that
  -- the division leaves at the parts do not matter
  induction h with
  | number hn =>
      have h := Spells.number (κ := κ) hn
      rw [h.parse_eq_readShape, h.shape_word hn.word, if_pos hn.isNumeral]
      exact hn.parseNumeral
  | @name x hx =>
      have hnumeral : ¬isNumeral x.toList = true := by simp [isNumeral_of_isPlainName hx]
      have h := Spells.name (κ := κ) hx
      rw [h.parse_eq_readShape, h.shape_word (word_name hx), if_neg hnumeral,
        if_pos (isIdentifier_of_isPlainName hx)]
      simp [readShape]
  | @call x f w u t v a hx hw hu hv ht ih =>
      have h := Spells.call hx hw hu hv ht
      rw [h.parse_eq_readShape,
        shape_call (isPlainName_of_ofName? hx) hw (hu.nested_between hv ht.nested) h]
      dsimp only [readShape]
      rw [ht.parse_padded hu hv, ih]
      simp [parseCall, hx, bind, Except.bind]
  | group hu hv ht ih =>
      rw [(Spells.group hu hv ht).parse_eq_readShape, shape_group (hu.nested_between hv ht.nested)]
      dsimp only [readShape]
      rw [ht.parse_padded hu hv, ih]
  | atom _ ih | unsigned _ ih | factor _ ih | term _ ih => exact ih
  | power hs hw hu ht ihs iht =>
      have h := Spells.power hs hw hu ht
      rw [h.parse_eq_readShape, shape_power hs hw h]
      dsimp only [readShape]
      rw [hs.parse_append_blanks hw, ht.parse_blanks_append hu, ihs, iht]
      rfl
  | negative hu ht ih =>
      have h := Spells.negative hu ht
      rw [h.parse_eq_readShape, shape_negative h]
      dsimp only [readShape]
      rw [ht.parse_blanks_append hu, ih]
      rfl
  | positive hu ht ih =>
      have h := Spells.positive hu ht
      rw [h.parse_eq_readShape, shape_positive h]
      dsimp only [readShape]
      rw [ht.parse_blanks_append hu, ih]
  | product hs hw hu ht ihs iht =>
      have h := Spells.product hs hw hu ht
      rw [h.parse_eq_readShape, shape_multiplicative hs hw (.inl rfl) hu ht h, if_pos rfl]
      dsimp only [readShape]
      rw [hs.parse_append_blanks hw, ht.parse_blanks_append hu, ihs, iht]
      rfl
  | quotient hs hw hu ht ihs iht =>
      have h := Spells.quotient hs hw hu ht
      rw [h.parse_eq_readShape, shape_multiplicative hs hw (.inr rfl) hu ht h,
        if_neg (by decide)]
      dsimp only [readShape]
      rw [hs.parse_append_blanks hw, ht.parse_blanks_append hu, ihs, iht]
      rfl
  | sum hs hw hu ht ihs iht =>
      have h := Spells.sum hs hw hu ht
      rw [h.parse_eq_readShape, shape_additive hs hw (.inl rfl) hu ht h, if_pos rfl]
      dsimp only [readShape]
      rw [hs.parse_append_blanks hw, ht.parse_blanks_append hu, ihs, iht]
      rfl
  | difference hs hw hu ht ihs iht =>
      have h := Spells.difference hs hw hu ht
      rw [h.parse_eq_readShape, shape_additive hs hw (.inr rfl) hu ht h, if_neg (by decide)]
      dsimp only [readShape]
      rw [hs.parse_append_blanks hw, ht.parse_blanks_append hu, ihs, iht]
      rfl

/-- The grammar is unambiguous: a text has at most one tree. -/
theorem Spells.tree_unique {e e' : Expr κ} (h : Spells .sum t e) (h' : Spells .sum t e') :
    e = e' := by
  have := h.parse_eq_ok
  rw [h'.parse_eq_ok] at this
  exact (Except.ok.inj this).symm

end Notation

/-! ### Strings -/

section Strings

open Notation

/-- **Every text of the grammar is read as the tree of its derivation.** -/
theorem Expr.parse_spelled {κ : Type} [Number κ] {u t v : List Char} {e : Expr κ}
    (hu : Blanks u) (hv : Blanks v) (h : Spells .sum t e) :
    Expr.parse (String.ofList (u ++ t ++ v)) = .ok e := by
  rw [Expr.parse, String.toList_ofList, h.parse_padded hu hv]
  exact h.parse_eq_ok

/-- A sign is looser than a power and tighter than a product, also where it looks like a
difference. -/
theorem Expr.parse_spelled_signedPower :
    Expr.parse " a *- b^.5-sin (x)\t" = .ok (.sub
      (.mul (.var "a") (minus (.pow (.var "b") (.const (Arithmetic.ofDecimal 5 (-1))))))
      (.apply .sin (.var "x")) : Expr Float) := by
  have name : ∀ {x : String}, isPlainName x.toList = true →
      Spells (κ := Float) .signed x.toList (.var x) := fun hx => .unsigned (.atom (.name hx))
  have half : Spells (κ := Float) .signed ['.', '5'] (.const (Arithmetic.ofDecimal 5 (-1))) :=
    .unsigned (.atom (.number (.pointed (w := []) (f := ['5']) (by simp) (by simp) (by simp))))
  have power : Spells .signed ['b', '^', '.', '5'] _ :=
    .unsigned (.power (s := ['b']) (w := []) (u := []) (.name (x := "b") (by decide))
      (by decide) (by decide) half)
  have product : Spells .sum ['a', ' ', '*', '-', ' ', 'b', '^', '.', '5'] _ :=
    .term (.product (s := ['a']) (w := [' ']) (u := []) (.factor (name (x := "a") (by decide)))
      (by decide) (by decide) (.negative (u := [' ']) (by decide) power))
  have sine : Spells .product ['s', 'i', 'n', ' ', '(', 'x', ')'] _ :=
    .factor (.unsigned (.atom (.call (x := "sin") (f := .sin) (w := [' ']) (u := []) (t := ['x'])
      (v := []) rfl (by decide) (by decide) (by decide)
      (.term (.factor (name (x := "x") (by decide)))))))
  have text : " a *- b^.5-sin (x)\t" = String.ofList
      ([' '] ++ (['a', ' ', '*', '-', ' ', 'b', '^', '.', '5'] ++ [] ++
        '-' :: ([] ++ ['s', 'i', 'n', ' ', '(', 'x', ')'])) ++ ['\t']) := rfl
  rw [text]
  exact Expr.parse_spelled (by decide) (by decide)
    (.difference (w := []) (u := []) product (by decide) (by decide) sine)

end Strings

end Reckoner
