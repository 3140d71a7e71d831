/-
**Exponents in braces.**

The braces around an exponent are dropped on the way to plain notation, and nothing takes their
place.  What is left is read by the rules of plain notation, where `^` binds tighter than every
other operator.  So an exponent is read as it was grouped when it is a single operand, with signs
and further powers, and otherwise the power ends at the first operand of the exponent and the rest
of the exponent follows the power as a term or a factor.

The scanners that divide a text are of use here on texts that are no derivations: what stands in
front of the exponent is of no account to them, whatever the exponent is.

Main definitions:

* `Reckoner.Notation.Shape.isLoose` — the shapes that are looser than a power;
* `Reckoner.Notation.Front` — what a division at an operator passes over;
* `Reckoner.Notation.CaretBase` — single letters and digits.

Main results:

* `Reckoner.Notation.Front.shape_append` — **behind a front a loose text is divided as it is by
  itself**;
* `Reckoner.Notation.CaretBase.parse_caret` — a text behind a base and `^` is the exponent of a
  power just when it is not loose;
* `Reckoner.Notation.CaretBase.normalizeChars_braced` — the braces of an exponent are dropped;
* `Reckoner.Expr.parse_normalize_braced` — **an exponent in braces keeps its group just when it is
  not loose**.
-/

import Mathlib.Data.List.DropRight
import Reckoner.Proofs.Markup
import Reckoner.Proofs.Precedence

set_option autoImplicit false

namespace Reckoner

/-! ### Trimming -/

namespace Text

variable {s t u : List Char} {c : Char}

/-- Nothing is trimmed off in front of a character that is not blank. -/
theorem trimRight_append_cons (hc : isBlank c = false) (s t : List Char) :
    trimRight (s ++ c :: t) = s ++ c :: trimRight t := by
  have hreverse : (s ++ c :: t).reverse = t.reverse ++ c :: s.reverse := by simp
  rw [trimRight, hreverse, List.dropWhile_append, List.dropWhile_cons_of_neg (by simp [hc])]
  split
  · rename_i hempty
    have hnil : t.reverse.dropWhile isBlank = [] := by simpa using hempty
    simp [trimRight, hnil]
  · simp [trimRight]

theorem trimRight_trimRight (t : List Char) : trimRight (trimRight t) = trimRight t := by
  simp only [trimRight, List.reverse_reverse, List.dropWhile_idempotent]

/-- A text that is not blank has a first character that is not. -/
theorem exists_first (h : trim t ≠ []) :
    ∃ u c r, t = u ++ c :: r ∧ (∀ d ∈ u, isBlank d = true) ∧ isBlank c = false := by
  induction t with
  | nil => exact absurd rfl h
  | cons c t ih =>
      cases hc : isBlank c with
      | false => exact ⟨[], c, t, rfl, by simp, hc⟩
      | true =>
          have htrim : trim (c :: t) = trim t := by simp [trim, trimLeft, hc]
          obtain ⟨u, d, r, rfl, hu, hd⟩ := ih (by rwa [htrim] at h)
          exact ⟨c :: u, d, r, rfl, by simpa [hc] using hu, hd⟩

theorem trim_blanks_append (hu : ∀ d ∈ u, isBlank d = true) (hc : isBlank c = false)
    (t : List Char) : trim (u ++ c :: t) = c :: trimRight t := by
  have hleft : trimLeft (u ++ c :: t) = c :: t := by
    rw [trimLeft, List.dropWhile_append_of_pos hu, List.dropWhile_cons_of_neg (by simp [hc])]
  have := trimRight_append_cons hc [] t
  rwa [trim, hleft]

end Text

namespace Notation

open Text (isBlank isLetter trim)

variable {κ : Type} [Number κ] {p s t u : List Char} {c d : Char}

/-! ### Texts behind a front -/

/-- The shapes that are looser than a power. -/
def Shape.isLoose : Shape → Bool
  | .sum .. | .difference .. | .product .. | .quotient .. => true
  | _ => false

/-- A loose shape when a text stands in front of its first part. -/
def Shape.behind (p : List Char) : Shape → Shape
  | .sum l r => .sum (p ++ l) r
  | .difference l r => .difference (p ++ l) r
  | .product l r => .product (p ++ l) r
  | .quotient l r => .quotient (p ++ l) r
  | s => s

/-- What a division at an operator or a seam passes over: its own signs are no operators, and
what follows it begins anew. -/
structure Front (p : List Char) : Prop where
  nested : Nested p
  ne_nil : p ≠ []
  sign : isSignAfter (lastSeen none p) = true
  additive : lastOperator? (fun c => c == '+' || c == '-') 0 none p = none
  multiplicative : lastOperator? (fun c => c == '*' || c == '/') 0 none p = none
  seam : lastSeam? {} p = none
  run : Seam.run {} p = {}

/-- It matters only whether what stands in front makes a plus or minus a sign. -/
theorem lastOperator?_congr (ops : Char → Bool) (depth : ℤ) {before before' : Option Char}
    (h : isSignAfter before = isSignAfter before') (t : List Char) :
    lastOperator? ops depth before t = lastOperator? ops depth before' t := by
  induction t generalizing depth before before' with
  | nil => rfl
  | cons c t ih =>
      have hrest : lastOperator? ops (depth + nesting c) (if isBlank c then before else some c) t =
          lastOperator? ops (depth + nesting c) (if isBlank c then before' else some c) t := by
        refine ih _ ?_
        split
        · exact h
        · rfl
      rw [lastOperator?, hrest, h]
      rfl

section Front

variable (hp : Front p)

include hp

theorem Front.enclosed?_append (ht : t ≠ []) : enclosed? (p ++ t) = none :=
  Notation.enclosed?_append hp.nested hp.ne_nil ht

/-- The last operator behind a front. -/
theorem Front.lastOperator?_append {ops : Char → Bool} (hops : lastOperator? ops 0 none p = none)
    (t : List Char) : lastOperator? ops 0 none (p ++ t) =
      (lastOperator? ops 0 none t).map fun q => (p ++ q.1, q.2) := by
  have hbefore : lastOperator? ops 0 (lastSeen none p) t = lastOperator? ops 0 none t :=
    lastOperator?_congr ops 0 hp.sign t
  rw [Notation.lastOperator?_append, hp.nested.nestingOf_eq, add_zero, hbefore, hops]
  cases lastOperator? ops 0 none t <;> rfl

/-- The last seam behind a front. -/
theorem Front.lastSeam?_append (t : List Char) :
    lastSeam? {} (p ++ t) = (lastSeam? {} t).map fun q => (p ++ q.1, q.2) := by
  rw [Notation.lastSeam?_append, hp.run, hp.seam]
  cases lastSeam? {} t <;> rfl

/-- A product or a quotient behind a front. -/
theorem Front.factorShape?_append (t : List Char) :
    factorShape? (p ++ t) = (factorShape? t).map (Shape.behind p) := by
  have hfirst (o : Char) (l r : List Char) :
      (if o = '*' then Shape.product (p ++ l) r else .quotient (p ++ l) r) =
        (if o = '*' then Shape.product l r else .quotient l r).behind p := by
    split <;> rfl
  simp only [factorShape?, hp.lastOperator?_append hp.multiplicative, hp.lastSeam?_append]
  cases lastOperator? (fun c => c == '*' || c == '/') 0 none t with
  | none => cases lastSeam? {} t <;> rfl
  | some q =>
      cases lastSeam? {} t with
      | none => simp [hfirst]
      | some q' =>
          simp only [Option.map_some, List.length_append, Nat.add_lt_add_iff_left, hfirst]
          split <;> rfl

end Front

theorem atomShape_not_isLoose (t : List Char) : (atomShape t).isLoose = false := by
  unfold atomShape
  split
  · rfl
  · rfl
  · split
    · rfl
    · split
      · rename_i s hs
        unfold callShape? at hs
        split at hs
        · split at hs
          · split at hs
            · obtain rfl := Option.some.inj hs
              rfl
            · simp at hs
          · simp at hs
        · simp at hs
      · split
        · rfl
        · split <;> rfl

theorem factorShape?_isLoose {x : Shape} (h : factorShape? t = some x) : x.isLoose = true := by
  unfold factorShape? at h
  dsimp only at h
  split at h
  · split at h
    · split at h
      · obtain rfl := Option.some.inj h
        split <;> rfl
      · obtain rfl := Option.some.inj h
        rfl
    · obtain rfl := Option.some.inj h
      split <;> rfl
  · obtain ⟨q, -, rfl⟩ := Option.map_eq_some_iff.1 h
    rfl

/-- A text that is not in brackets as a whole is divided at its last plus or minus, if any. -/
theorem shape_of_not_enclosed (ht : t ≠ []) (hb : balanced t = true) (he : enclosed? t = none) :
    shape t = match lastOperator? (fun c => c == '+' || c == '-') 0 none t with
      | some (l, o, r) => if o = '+' then .sum l r else .difference l r
      | none => (factorShape? t).getD (atomShape t) := by
  have hne : t.isEmpty = false := by simpa using ht
  rw [shape, hne, hb, he]
  rfl

/-- Within a pair of brackets around everything there is no place to divide. -/
theorem undivided_of_enclosed? (hn : Nested t) (he : enclosed? t = some s) :
    lastOperator? (fun c => c == '+' || c == '-') 0 none t = none ∧ factorShape? t = none := by
  have hs : Nested s := hn.of_enclosed? he
  obtain rfl := enclosed?_eq he
  obtain ⟨hseam, -⟩ := lastSeam?_group (x := {}) hs rfl (.inl rfl)
  refine ⟨lastOperator?_group hs _ none, ?_⟩
  rw [factorShape?, lastOperator?_group hs, hseam]
  rfl

/-- **Behind a front a loose text is divided as it is by itself**, and any other text is one operand
with the front. -/
theorem Front.shape_append (hp : Front p) (ht : t ≠ []) (hb : balanced t = true) :
    shape (p ++ t) = if (shape t).isLoose then (shape t).behind p else atomShape (p ++ t) := by
  have hn : Nested t := nested_of_balanced hb
  have hpt : p ++ t ≠ [] := by simp [ht]
  rw [shape_of_not_enclosed hpt (hp.nested.append hn).balanced (hp.enclosed?_append ht),
    hp.lastOperator?_append hp.additive, hp.factorShape?_append]
  cases he : enclosed? t with
  | some inner =>
      have hshape : shape t = .enclosed inner := by
        have hne : t.isEmpty = false := by simpa using ht
        rw [shape, hne, hb, he]
        rfl
      obtain ⟨hops, hfactor⟩ := undivided_of_enclosed? hn he
      rw [hshape, hops, hfactor]
      rfl
  | none =>
      rw [shape_of_not_enclosed ht hb he]
      cases lastOperator? (fun c => c == '+' || c == '-') 0 none t with
      | some q =>
          dsimp only [Option.map_some]
          split <;> rfl
      | none =>
          cases hf : factorShape? t with
          | some x => simp [factorShape?_isLoose hf]
          | none => simp [atomShape_not_isLoose]

/-! ### Bases -/

/-- The operators, the brackets, the braces and the backslash. -/
def isMark (c : Char) : Bool :=
  ['+', '-', '*', '/', '^', '(', ')', '\\', '\x7b', '\x7d'].contains c

theorem not_letter_or_digit_of_isMark (h : isMark c = true) :
    isLetter c = false ∧ c.isDigit = false := by
  simp only [isMark, List.contains_eq_mem, List.mem_cons, List.not_mem_nil, or_false,
    decide_eq_true_eq] at h
  rcases h with rfl | rfl | rfl | rfl | rfl | rfl | rfl | rfl | rfl | rfl <;> decide +kernel

theorem isMark_of_isOperator (h : isOperator c = true) : isMark c = true := by
  rcases mem_operators h with rfl | rfl | rfl | rfl | rfl <;> rfl

/-- A single letter, or digits. -/
inductive CaretBase : List Char → Prop
  | letter {c : Char} : isLetter c = true → CaretBase [c]
  | digits {w : List Char} : w ≠ [] → (∀ c ∈ w, c.isDigit = true) → CaretBase w

namespace CaretBase

variable {b : List Char} (hb : CaretBase b)

include hb

theorem letter_or_digit : ∀ c ∈ b, isLetter c = true ∨ c.isDigit = true := by
  cases hb with
  | letter h => simp [h]
  | digits _ h => exact fun c hc => .inr (h c hc)

/-- There are no marks in a base. -/
theorem ne_of_mem (hd : isMark d = true) : ∀ c ∈ b, c ≠ d := by
  rintro c hc rfl
  obtain ⟨hletter, hdigit⟩ := not_letter_or_digit_of_isMark hd
  have := hb.letter_or_digit c hc
  simp [hletter, hdigit] at this

theorem nesting_eq_zero : ∀ c ∈ b, nesting c = 0 := by
  intro c hc
  rw [nesting_eq_zero_iff]
  exact ⟨hb.ne_of_mem rfl c hc, hb.ne_of_mem rfl c hc⟩

theorem isBlank_eq_false : ∀ c ∈ b, isBlank c = false := by
  intro c hc
  rcases hb.letter_or_digit c hc with h | h
  · exact Text.isBlank_of_isLetter h
  · have := Text.toNat_of_isDigit h
    exact Text.isBlank_of_visible (by omega) (by omega)

theorem exists_cons : ∃ c r, b = c :: r := by
  cases hb with
  | letter => exact ⟨_, [], rfl⟩
  | digits hne => exact List.exists_cons_of_ne_nil hne

/-- A base has no operator. -/
theorem lastOperator?_eq_none {ops : Char → Bool} (hops : ∀ c, ops c = true → isOperator c = true) :
    lastOperator? ops 0 none b = none := by
  refine lastOperator?_of_forall ?_ 0 none
  intro c hc
  refine ⟨hb.nesting_eq_zero c hc, ?_⟩
  rw [Bool.eq_false_iff]
  intro ho
  exact hb.ne_of_mem (isMark_of_isOperator (hops c ho)) c hc rfl

theorem lastSeam?_eq_none : lastSeam? {} b = none ∧ (Seam.run {} b).depth = 0 := by
  cases hb with
  | @letter c h =>
      have hopen : c ≠ '(' := by
        rintro rfl
        exact absurd h (by decide +kernel)
      have hkind : operandOf? c = some .identifier := by simp [operandOf?, hopen, h]
      constructor
      · simp [lastSeam?, Seam.splitsAt, hkind, Seam.continues]
      · simp [Seam.next, Text.isBlank_of_isLetter h, hkind, hopen]
  | digits _ h => exact lastSeam?_number (fun c hc => .inl (h c hc)) (.inl rfl)

/-- **A base with `^` is of no account to what follows.** -/
theorem front (hu : Blanks u) : Front (b ++ '^' :: u) := by
  have hadd : ∀ c : Char, (c == '+' || c == '-') = true → isOperator c = true :=
    fun _ => isOperator_of_additive
  have hmul : ∀ c : Char, (c == '*' || c == '/') = true → isOperator c = true :=
    fun _ => isOperator_of_multiplicative
  have hnested : Nested b := nested_of_forall hb.nesting_eq_zero
  have operators {ops : Char → Bool} (hops : ∀ c, ops c = true → isOperator c = true)
      (hcaret : ops '^' = false) : lastOperator? ops 0 none (b ++ '^' :: u) = none := by
    refine hnested.lastOperator?_append_none (hb.lastOperator?_eq_none hops) ?_
    exact lastOperator?_cons_none rfl (by decide) (by simp [hcaret])
      (hu.lastOperator?_eq_none hops)
  obtain ⟨hseam, hdepth⟩ := hb.lastSeam?_eq_none
  obtain ⟨hnone, hrun⟩ :=
    lastSeam?_operator (c := '^') rfl hdepth (hu.lastSeam?_eq_none {})
  constructor
  case nested => exact hnested.append (.char rfl hu.nested)
  case ne_nil => simp
  case sign =>
    rw [lastSeen_append, lastSeen_cons, hu.lastSeen_eq]
    rfl
  case additive => exact operators hadd rfl
  case multiplicative => exact operators hmul rfl
  case seam => exact lastSeam?_append_none hseam hnone
  case run => rw [Seam.run_append, hrun, hu.run_start]

/-- The first `^` is the one behind the base. -/
theorem atomShape_caret (t : List Char) : atomShape (b ++ '^' :: t) = .power b t := by
  have hfirst : firstOutside? '^' 0 (b ++ '^' :: t) = some (b, t) := by
    have hcaret : ∀ c ∈ b, nesting c = 0 ∧ c ≠ '^' := fun c hc =>
      ⟨hb.nesting_eq_zero c hc, hb.ne_of_mem rfl c hc⟩
    rw [firstOutside?_of_forall hcaret]
    simp [firstOutside?, nesting]
  obtain ⟨c, r, rfl⟩ := hb.exists_cons
  have hminus : c ≠ '-' := hb.ne_of_mem rfl c List.mem_cons_self
  have hplus : c ≠ '+' := hb.ne_of_mem rfl c List.mem_cons_self
  rw [List.cons_append] at hfirst ⊢
  rw [atomShape_unsigned hminus hplus, hfirst]

/-- **The shape of a power with any exponent**: one that is loose goes on behind the power. -/
theorem shape_caret (hu : Blanks u) (ht : t ≠ []) (hbal : balanced t = true) :
    shape (b ++ '^' :: (u ++ t)) =
      if (shape t).isLoose then (shape t).behind (b ++ '^' :: u) else .power b (u ++ t) := by
  have := (hb.front hu).shape_append ht hbal
  rwa [List.append_assoc, List.cons_append, hb.atomShape_caret] at this

end CaretBase

/-! ### The tree of a power -/

/-- The reader looks at a text without the blanks around it. -/
theorem parse_congr (h : trim s = trim t) :
    (parse s : Except ParseError (Expr κ)) = parse t := by
  rw [parse_eq, parse_eq t, h]

/-- What is read is not blank, and its brackets match. -/
theorem balanced_of_parse {x : Expr κ} (h : parse t = .ok x) :
    trim t ≠ [] ∧ balanced (trim t) = true := by
  rw [parse_eq] at h
  constructor
  · intro hnil
    rw [hnil] at h
    simp [shape, readShape] at h
  · cases hb : balanced (trim t) with
    | true => rfl
    | false =>
        have hne : (trim t).isEmpty = false := by
          rw [Bool.eq_false_iff]
          intro hnil
          rw [List.isEmpty_iff.1 hnil] at hb
          exact absurd hb (by decide)
        have hshape : shape (trim t) = .unbalanced := by
          rw [shape, hne, hb]
          rfl
        rw [hshape] at h
        simp [readShape] at h

/-- What is read from a loose shape is no power. -/
theorem readShape_behind_ne_pow {x : Shape} (hx : x.isLoose = true) (p : List Char) (y z : Expr κ) :
    readShape t (x.behind p) ≠ .ok (.pow y z) := by
  intro h
  cases x <;> simp only [Shape.isLoose, Bool.false_eq_true] at hx
  all_goals
    rename_i l r
    simp only [Shape.behind, readShape] at h
    cases hl : (parse (p ++ l) : Except ParseError (Expr κ)) <;>
      cases hr : (parse r : Except ParseError (Expr κ)) <;>
        simp [hl, hr, bind, Except.bind, pure, Except.pure] at h

/-- **A text behind a base and `^` is the exponent of a power just when it is not loose.** -/
theorem CaretBase.parse_caret {b : List Char} (hb : CaretBase b) {y x : Expr κ}
    (hy : parse b = .ok y) (hx : parse t = .ok x) :
    parse (b ++ '^' :: t) = .ok (.pow y x) ↔ (shape (trim t)).isLoose = false := by
  obtain ⟨hne, hbal⟩ := balanced_of_parse hx
  obtain ⟨u, c, r, rfl, hu, hc⟩ := Text.exists_first hne
  have htrim : trim (u ++ c :: r) = c :: Text.trimRight r := Text.trim_blanks_append hu hc r
  -- the blanks behind are trimmed off, and those in front of the exponent stay
  have hwhole : trim (b ++ '^' :: (u ++ c :: r)) = b ++ '^' :: (u ++ trim (u ++ c :: r)) := by
    obtain ⟨d, b, rfl⟩ := hb.exists_cons
    have hd : isBlank d = false := hb.isBlank_eq_false d List.mem_cons_self
    have hleft := Text.trim_blanks_append (u := []) (by simp) hd (b ++ '^' :: (u ++ c :: r))
    have hright := Text.trimRight_append_cons hc (b ++ '^' :: u) r
    rw [List.append_assoc, List.cons_append, List.append_assoc, List.cons_append] at hright
    rw [List.cons_append, List.cons_append, htrim, ← hright]
    exact hleft
  have hexponent : parse (u ++ trim (u ++ c :: r)) = .ok x := by
    rw [← hx]
    refine parse_congr ?_
    rw [htrim, Text.trim_blanks_append hu hc, Text.trimRight_trimRight]
  rw [parse_eq, hwhole, hb.shape_caret hu hne hbal]
  cases hloose : (shape (trim (u ++ c :: r))).isLoose with
  | true =>
      have := readShape_behind_ne_pow (t := b ++ '^' :: (u ++ trim (u ++ c :: r))) hloose
        (b ++ '^' :: u) y x
      simpa using this
  | false =>
      simp only [Bool.false_eq_true, if_false, iff_true, readShape, hy, hexponent]
      rfl

/-! ### Braces -/

section Braces

open Canonical

variable {b : List Char}

theorem CaretBase.explicit (hb : CaretBase b) : Explicit b := by
  cases hb with
  | letter _ => exact List.isChain_singleton _
  | digits _ hw => exact explicit_of_digits hw

/-- The braces of an exponent are dropped, and implied products are found in it by itself. -/
theorem CaretBase.normalizeChars_braced (hb : CaretBase b)
    (ht : ∀ c ∈ t, c ≠ '\\' ∧ c ≠ '\x7b' ∧ c ≠ '\x7d') :
    normalizeChars (b ++ '^' :: '\x7b' :: (t ++ ['\x7d'])) = b ++ '^' :: normalizeChars t := by
  have hbase : ∀ c ∈ b ++ ['^'], c ≠ '\\' ∧ c ≠ '\x7b' ∧ c ≠ '\x7d' := by
    intro c hc
    rcases List.mem_append.1 hc with hc | hc
    · exact ⟨hb.ne_of_mem rfl c hc, hb.ne_of_mem rfl c hc,
        hb.ne_of_mem rfl c hc⟩
    · obtain rfl := List.mem_singleton.1 hc
      decide
  have hexplicit : Explicit (b ++ ['^'] ++ t.head?.toList) := by
    have hhead : Explicit t.head?.toList := by
      cases t with
      | nil => exact .nil
      | cons c t => exact List.isChain_singleton c
    simpa using hb.explicit.joined (c := '^') rfl hhead
  have hexponent : normalizeChars t = insertProducts t := (Writes.text ht).normalizeChars
  have hwhole := ((Writes.text hbase).append (Writes.text ht).group).normalizeChars
  rw [insertProducts_append hexplicit] at hwhole
  rw [hexponent]
  simpa using hwhole

end Braces

end Notation

/-! ### Strings -/

section Strings

open Notation Text

/-- **An exponent in braces keeps its group just when it is not loose**: when it is no sum,
difference, product or quotient by itself. -/
theorem Expr.parse_normalize_braced {κ : Type} [Number κ] {base exponent : String} {b x : Expr κ}
    (hbase : CaretBase base.toList)
    (hplain : ∀ c ∈ exponent.toList, c ≠ '\\' ∧ c ≠ '\x7b' ∧ c ≠ '\x7d')
    (hb : Expr.parse base = .ok b) (hx : Expr.parse (normalize exponent) = .ok x) :
    Expr.parse (normalize (base ++ "^\x7b" ++ exponent ++ "\x7d")) = .ok (.pow b x) ↔
      (shape (trim (normalize exponent).toList)).isLoose = false := by
  have htext : (base ++ "^\x7b" ++ exponent ++ "\x7d").toList =
      base.toList ++ '^' :: '\x7b' :: (exponent.toList ++ ['\x7d']) := by
    simp [String.toList_append]
  have hcanonical := hbase.normalizeChars_braced hplain
  rw [Expr.parse, normalize, String.toList_ofList] at hx
  rw [Expr.parse, normalize, normalize, htext, hcanonical, String.toList_ofList,
    String.toList_ofList]
  exact hbase.parse_caret hb hx

/-- Signs and powers are kept: the exponent of `x^{-n^2}` is `-n^2`. -/
theorem Expr.parse_normalize_bracedSign :
    Expr.parse (normalize "x^\x7b-n^2\x7d") = .ok (.pow (.var "x")
      (minus (.pow (.var "n") (.const (Arithmetic.ofDecimal 2 0)))) : Expr Float) := by
  have name {x : String} (hx : isPlainName x.toList = true) :
      Spells (κ := Float) .atom x.toList (.var x) := .name hx
  have hpower : Spells (κ := Float) .power ['n', '^', '2'] _ :=
    .power (s := ['n']) (w := []) (u := []) (t := ['2']) (name (x := "n") (by decide)) blanks_nil
      blanks_nil (.unsigned (.atom (.digit rfl)))
  have hsign : Spells (κ := Float) .signed ['-', 'n', '^', '2'] _ :=
    .negative (u := []) blanks_nil (.unsigned hpower)
  have hcanonical : normalize "-n^2" = String.ofList ['-', 'n', '^', '2'] := by decide
  have hbase : Expr.parse "x" = .ok (.var "x" : Expr Float) :=
    (name (x := "x") (by decide)).parse_eq_ok
  have hexponent : Expr.parse (normalize "-n^2") = .ok (minus (.pow (.var "n")
      (.const (Arithmetic.ofDecimal 2 0))) : Expr Float) := by
    rw [hcanonical, Expr.parse, String.toList_ofList]
    exact hsign.parse_eq_ok
  have hletter : CaretBase "x".toList := .letter (by decide)
  exact (Expr.parse_normalize_braced hletter (by simp) hbase hexponent).2 (by decide +kernel)

/-- The exponent of `2^{1+1}` loses its group: what is read is the sum of `2^1` and one, and not two
to the power of `1+1`. -/
theorem Expr.parse_normalize_bracedSum :
    let one : Expr Float := .const (Arithmetic.ofDecimal 1 0)
    let two : Expr Float := .const (Arithmetic.ofDecimal 2 0)
    Expr.parse "2" = .ok two ∧ Expr.parse (normalize "1+1") = .ok (.add one one) ∧
      Expr.parse (normalize "2^\x7b1+1\x7d") = .ok (.add (.pow two one) one) ∧
      Expr.parse (normalize "2^\x7b1+1\x7d") ≠ .ok (.pow two (.add one one)) := by
  intro one two
  have hone : Spells .signed ['1'] one := .unsigned (.atom (.digit rfl))
  have htwo : Spells .atom ['2'] two := .digit rfl
  have hexponent : Spells .sum ['1', '+', '1'] (.add one one) :=
    .sum (s := ['1']) (w := []) (u := []) (t := ['1']) (.term (.factor hone)) blanks_nil
      blanks_nil (.factor hone)
  have hpower : Spells .signed ['2', '^', '1'] (.pow two one) :=
    .unsigned (.power (s := ['2']) (w := []) (u := []) (t := ['1']) htwo blanks_nil blanks_nil
      hone)
  have hsum : Spells .sum ['2', '^', '1', '+', '1'] (.add (.pow two one) one) :=
    .sum (s := ['2', '^', '1']) (w := []) (u := []) (t := ['1']) (.term (.factor hpower))
      blanks_nil blanks_nil (.factor hone)
  have hcanonical : normalize "1+1" = String.ofList ['1', '+', '1'] := by decide
  have hbraced : normalize "2^\x7b1+1\x7d" = String.ofList ['2', '^', '1', '+', '1'] := by
    decide
  have hread : Expr.parse (normalize "2^\x7b1+1\x7d") = .ok (.add (.pow two one) one) := by
    rw [hbraced, Expr.parse, String.toList_ofList]
    exact hsum.parse_eq_ok
  refine ⟨htwo.parse_eq_ok, ?_, hread, ?_⟩
  · rw [hcanonical, Expr.parse, String.toList_ofList]
    exact hexponent.parse_eq_ok
  · rw [hread]
    simp

end Strings

end Reckoner
