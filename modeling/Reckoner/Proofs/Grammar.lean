/-
**The grammar of plain notation.**

Plain notation has five levels, the loosest first:

    sum      =  sum + product  |  sum - product  |  product
    product  =  product * signed  |  product / signed  |  signed
    signed   =  - signed  |  + signed  |  power
    power    =  atom ^ signed  |  atom
    atom     =  number  |  name  |  function ( sum )  |  ( sum )

A derivation of this grammar has a tree, and it is written down with blanks between its tokens at
will.  The relation below holds of a level, a text and a tree when the text writes down a
derivation with that tree.  The reader knows nothing of derivations: it looks for operators and
seams outside brackets.  What it can see of a derivation is collected here.

Main definitions:

* `Reckoner.Notation.Level` — the levels of the grammar;
* `Reckoner.Notation.Numeral` — the numbers of the grammar;
* `Reckoner.Notation.Spells` — the texts that write down a derivation, with its tree;
* `Reckoner.Notation.Seamless` — texts without two operands next to each other.

Main results:

* `Reckoner.Notation.Spells.loosen` — what is derived from a level is derived from a looser one;
* `Reckoner.Notation.Spells.sum_induction`, `Reckoner.Notation.Spells.product_induction` — induction
  over the terms of a sum and the factors of a product;
* `Reckoner.Notation.Spells.nested` — the brackets of a derivation match;
* `Reckoner.Notation.Spells.lastOperator?_additive`,
  `Reckoner.Notation.Spells.lastOperator?_multiplicative` — **a level shows no operator of a looser
  level**: its plus and minus signs are signs;
* `Reckoner.Notation.Spells.firstOutside?_caret` — an atom shows no `^`;
* `Reckoner.Notation.Spells.seamless` — no two operands of a derivation meet.
-/

import Mathlib.Tactic
import Reckoner.Notation.Parser
import Reckoner.Proofs.Characters
import Reckoner.Proofs.Scanning

set_option autoImplicit false

namespace Reckoner.Notation

open Text (isBlank isLetter)

variable {κ : Type} [Number κ]

/-! ### Derivations -/

/-- The levels of the grammar. -/
inductive Level
  | sum | product | signed | power | atom

/-- How loose a level is. -/
def Level.rank : Level → ℕ
  | .sum => 4
  | .product => 3
  | .signed => 2
  | .power => 1
  | .atom => 0

/-- A text of white space. -/
def Blanks (w : List Char) : Prop := ∀ c ∈ w, isBlank c = true

instance (w : List Char) : Decidable (Blanks w) :=
  decidable_of_iff (w.all isBlank = true) List.all_eq_true

/-- A name in ASCII: a letter, then letters, digits and underscores. -/
def isPlainName : List Char → Bool
  | [] => false
  | c :: cs => c.isAlpha && cs.all fun d => d.isAlphanum || d == '_'

/-- Digits with at most one point stand for the number `n * 10 ^ p`. -/
inductive Numeral : List Char → ℕ → ℤ → Prop
  | whole {w : List Char} : w ≠ [] → (∀ c ∈ w, c.isDigit = true) → Numeral w (Literal.natural w) 0
  /-- There are digits on at least one side of the point. -/
  | pointed {w f : List Char} : w ++ f ≠ [] → (∀ c ∈ w, c.isDigit = true) →
      (∀ c ∈ f, c.isDigit = true) →
      Numeral (w ++ '.' :: f) (Literal.natural (w ++ f)) (-(f.length : ℤ))

/-- The text writes down a derivation from the level, and the derivation has the tree.  There may
be blanks between any two tokens, and there are none at the ends. -/
inductive Spells : Level → List Char → Expr κ → Prop
  /-- A number is the one nearest to its digits. -/
  | number {t : List Char} {n : ℕ} {p : ℤ} : Numeral t n p →
      Spells .atom t (.const (Arithmetic.ofDecimal n p))
  /-- A variable or a named constant. -/
  | name {x : String} : isPlainName x.toList = true → Spells .atom x.toList (.var x)
  /-- A function with its argument. -/
  | call {x : String} {f : Elementary} {w u t v : List Char} {a : Expr κ} :
      Elementary.ofName? x = some f → Blanks w → Blanks u → Blanks v → Spells .sum t a →
      Spells .atom (x.toList ++ w ++ '(' :: (u ++ t ++ v ++ [')'])) (.apply f a)
  /-- Brackets leave no trace. -/
  | group {u t v : List Char} {e : Expr κ} : Blanks u → Blanks v → Spells .sum t e →
      Spells .atom ('(' :: (u ++ t ++ v ++ [')'])) e
  | atom {t : List Char} {e : Expr κ} : Spells .atom t e → Spells .power t e
  /-- Powers group to the right, and the exponent may have a sign. -/
  | power {s w u t : List Char} {a b : Expr κ} :
      Spells .atom s a → Blanks w → Blanks u → Spells .signed t b →
      Spells .power (s ++ w ++ '^' :: (u ++ t)) (.pow a b)
  | unsigned {t : List Char} {e : Expr κ} : Spells .power t e → Spells .signed t e
  /-- A minus negates a number and multiplies anything else by minus one. -/
  | negative {u t : List Char} {e : Expr κ} : Blanks u → Spells .signed t e →
      Spells .signed ('-' :: (u ++ t)) (minus e)
  /-- A plus in front leaves no trace. -/
  | positive {u t : List Char} {e : Expr κ} : Blanks u → Spells .signed t e →
      Spells .signed ('+' :: (u ++ t)) e
  | factor {t : List Char} {e : Expr κ} : Spells .signed t e → Spells .product t e
  /-- Products and quotients group to the left. -/
  | product {s w u t : List Char} {a b : Expr κ} :
      Spells .product s a → Blanks w → Blanks u → Spells .signed t b →
      Spells .product (s ++ w ++ '*' :: (u ++ t)) (.mul a b)
  | quotient {s w u t : List Char} {a b : Expr κ} :
      Spells .product s a → Blanks w → Blanks u → Spells .signed t b →
      Spells .product (s ++ w ++ '/' :: (u ++ t)) (.div a b)
  | term {t : List Char} {e : Expr κ} : Spells .product t e → Spells .sum t e
  /-- Sums and differences group to the left. -/
  | sum {s w u t : List Char} {a b : Expr κ} :
      Spells .sum s a → Blanks w → Blanks u → Spells .product t b →
      Spells .sum (s ++ w ++ '+' :: (u ++ t)) (.add a b)
  | difference {s w u t : List Char} {a b : Expr κ} :
      Spells .sum s a → Blanks w → Blanks u → Spells .product t b →
      Spells .sum (s ++ w ++ '-' :: (u ++ t)) (.sub a b)

/-! ### Levels -/

section Levels

variable {l l' : Level} {t : List Char} {e : Expr κ}

theorem Level.rank_le_sum (l : Level) : l.rank ≤ Level.sum.rank := by
  cases l <;> decide

/-- What is derived from a level is derived from every looser one. -/
theorem Spells.loosen (h : Spells l t e) (hl : l.rank ≤ l'.rank) : Spells l' t e := by
  have hatom (h : Spells .atom t e) : Spells .signed t e := .unsigned (.atom h)
  cases l' with
  | atom =>
      cases l with
      | atom => exact h
      | power | signed | product | sum => simp [Level.rank] at hl
  | power =>
      cases l with
      | atom => exact .atom h
      | power => exact h
      | signed | product | sum => simp [Level.rank] at hl
  | signed =>
      cases l with
      | atom => exact hatom h
      | power => exact .unsigned h
      | signed => exact h
      | product | sum => simp [Level.rank] at hl
  | product =>
      cases l with
      | atom => exact .factor (hatom h)
      | power => exact .factor (.unsigned h)
      | signed => exact .factor h
      | product => exact h
      | sum => simp [Level.rank] at hl
  | sum =>
      cases l with
      | atom => exact .term (.factor (hatom h))
      | power => exact .term (.factor (.unsigned h))
      | signed => exact .term (.factor h)
      | product => exact .term h
      | sum => exact h

/-- Induction over the factors of a product. -/
theorem Spells.product_induction {motive : ∀ t e, Spells (κ := κ) .product t e → Prop}
    (factor : ∀ {t e} (h : Spells .signed t e), motive t e (.factor h))
    (product : ∀ {s w u t a b} (hs : Spells .product s a) (hw : Blanks w) (hu : Blanks u)
      (ht : Spells .signed t b), motive s a hs → motive _ _ (.product hs hw hu ht))
    (quotient : ∀ {s w u t a b} (hs : Spells .product s a) (hw : Blanks w) (hu : Blanks u)
      (ht : Spells .signed t b), motive s a hs → motive _ _ (.quotient hs hw hu ht))
    {t : List Char} {e : Expr κ} (h : Spells .product t e) : motive t e h := by
  have all : ∀ {l t e} (h : Spells l t e) (hl : l = .product), motive t e (hl ▸ h) := by
    intro l t e h
    induction h with
    | factor h _ => exact fun _ => factor h
    | product hs hw hu ht ih _ => exact fun _ => product hs hw hu ht (ih rfl)
    | quotient hs hw hu ht ih _ => exact fun _ => quotient hs hw hu ht (ih rfl)
    | _ => exact fun hl => nomatch hl
  exact all h rfl

/-- Induction over the terms of a sum. -/
theorem Spells.sum_induction {motive : ∀ t e, Spells (κ := κ) .sum t e → Prop}
    (term : ∀ {t e} (h : Spells .product t e), motive t e (.term h))
    (sum : ∀ {s w u t a b} (hs : Spells .sum s a) (hw : Blanks w) (hu : Blanks u)
      (ht : Spells .product t b), motive s a hs → motive _ _ (.sum hs hw hu ht))
    (difference : ∀ {s w u t a b} (hs : Spells .sum s a) (hw : Blanks w) (hu : Blanks u)
      (ht : Spells .product t b), motive s a hs → motive _ _ (.difference hs hw hu ht))
    {t : List Char} {e : Expr κ} (h : Spells .sum t e) : motive t e h := by
  have all : ∀ {l t e} (h : Spells l t e) (hl : l = .sum), motive t e (hl ▸ h) := by
    intro l t e h
    induction h with
    | term h _ => exact fun _ => term h
    | sum hs hw hu ht ih _ => exact fun _ => sum hs hw hu ht (ih rfl)
    | difference hs hw hu ht ih _ => exact fun _ => difference hs hw hu ht (ih rfl)
    | _ => exact fun hl => nomatch hl
  exact all h rfl

end Levels

/-! ### Blanks -/

section Blanks

variable {w u : List Char} {c d : Char}

@[simp] theorem blanks_nil : Blanks [] := by simp [Blanks]

theorem Blanks.append (hw : Blanks w) (hu : Blanks u) : Blanks (w ++ u) := by
  intro c hc
  rcases List.mem_append.1 hc with hc | hc
  · exact hw c hc
  · exact hu c hc

/-- A character that is not blank is none of the blanks. -/
theorem Blanks.ne_of_mem (hw : Blanks w) (hc : c ∈ w) (hd : isBlank d = false) : c ≠ d := by
  rintro rfl
  rw [hw c hc] at hd
  simp at hd

theorem Blanks.nesting_eq_zero (hw : Blanks w) : ∀ c ∈ w, nesting c = 0 := by
  intro c hc
  rw [nesting_eq_zero_iff]
  exact ⟨hw.ne_of_mem hc (by decide), hw.ne_of_mem hc (by decide)⟩

theorem Blanks.nested (hw : Blanks w) : Nested w := nested_of_forall hw.nesting_eq_zero

theorem Blanks.lastSeen_eq (hw : Blanks w) (before : Option Char) :
    lastSeen before w = before := by
  induction w with
  | nil => rfl
  | cons c w ih =>
      obtain ⟨hc, hw⟩ := List.forall_mem_cons.1 hw
      rw [lastSeen_cons, if_pos hc, ih hw]

theorem Blanks.lastSeam?_eq_none (hw : Blanks w) (x : Seam) : lastSeam? x w = none := by
  induction w generalizing x with
  | nil => rfl
  | cons c w ih =>
      obtain ⟨hc, hw⟩ := List.forall_mem_cons.1 hw
      simp [lastSeam?, Seam.splitsAt, hc, ih hw]

/-- The search for a character that is not blank passes over blanks. -/
theorem Blanks.firstOutside?_append (hw : Blanks w) (hd : isBlank d = false) (r : List Char) :
    firstOutside? d 0 (w ++ r) = (firstOutside? d 0 r).map fun p => (w ++ p.1, p.2) :=
  firstOutside?_of_forall (fun c hc => ⟨hw.nesting_eq_zero c hc, hw.ne_of_mem hc hd⟩) r

/-- Blanks do not end an operand. -/
theorem Blanks.run (hw : Blanks w) {x : Seam} (hx : x.depth = 0) :
    (x.run w).depth = 0 ∧ (x.run w).before = x.before := by
  induction w generalizing x with
  | nil => exact ⟨hx, rfl⟩
  | cons c w ih =>
      obtain ⟨hc, hw⟩ := List.forall_mem_cons.1 hw
      have hnext : x.next c = { x with gap := x.before.isSome } := by simp [Seam.next, hx, hc]
      rw [Seam.run_cons, hnext]
      exact ih hw hx

/-- Blanks in front of an operand are of no account. -/
theorem Blanks.run_start (hw : Blanks w) : Seam.run {} w = {} := by
  induction w with
  | nil => rfl
  | cons c w ih =>
      obtain ⟨hc, hw⟩ := List.forall_mem_cons.1 hw
      have hnext : Seam.next {} c = {} := by simp [Seam.next, hc]
      rw [Seam.run_cons, hnext, ih hw]

end Blanks

/-! ### Texts without blanks -/

section Tight

variable {s t : List Char} {a b : Expr κ}

theorem Spells.tight_call {x : String} {f : Elementary} (hx : Elementary.ofName? x = some f)
    (ht : Spells .sum t a) : Spells .atom (x.toList ++ '(' :: (t ++ [')'])) (.apply f a) := by
  simpa using Spells.call hx blanks_nil blanks_nil blanks_nil ht

theorem Spells.tight_group (ht : Spells .sum t a) : Spells .atom ('(' :: (t ++ [')'])) a := by
  simpa using Spells.group blanks_nil blanks_nil ht

theorem Spells.tight_power (hs : Spells .atom s a) (ht : Spells .signed t b) :
    Spells .power (s ++ '^' :: t) (.pow a b) := by
  simpa using Spells.power hs blanks_nil blanks_nil ht

theorem Spells.tight_negative (ht : Spells .signed t a) : Spells .signed ('-' :: t) (minus a) :=
  .negative blanks_nil ht

theorem Spells.tight_quotient (hs : Spells .product s a) (ht : Spells .signed t b) :
    Spells .product (s ++ '/' :: t) (.div a b) := by
  simpa using Spells.quotient hs blanks_nil blanks_nil ht

theorem Spells.tight_sum (hs : Spells .sum s a) (ht : Spells .product t b) :
    Spells .sum (s ++ '+' :: t) (.add a b) := by
  simpa using Spells.sum hs blanks_nil blanks_nil ht

theorem Spells.tight_difference (hs : Spells .sum s a) (ht : Spells .product t b) :
    Spells .sum (s ++ '-' :: t) (.sub a b) := by
  simpa using Spells.difference hs blanks_nil blanks_nil ht

end Tight

/-! ### Words -/

section Words

variable {t : List Char} {c d : Char}

/-- A character of a number or of a name in ASCII. -/
def isWordChar (c : Char) : Bool := c.isAlphanum || c == '_' || c == '.'

/-- A text of such characters. -/
structure Word (t : List Char) : Prop where
  ne_nil : t ≠ []
  chars : ∀ c ∈ t, isWordChar c = true

theorem ne_of_isWordChar (hc : isWordChar c = true) (hd : isWordChar d = false) : c ≠ d := by
  rintro rfl
  rw [hc] at hd
  simp at hd

theorem isBlank_of_isWordChar (h : isWordChar c = true) : isBlank c = false := by
  simp only [isWordChar, Char.isAlphanum, Bool.or_eq_true, beq_iff_eq] at h
  rcases h with ((ha | hd) | rfl) | rfl
  · have := Text.toNat_of_isAlpha ha
    exact Text.isBlank_of_visible (by omega) (by omega)
  · have := Text.toNat_of_isDigit hd
    exact Text.isBlank_of_visible (by omega) (by omega)
  · decide
  · decide

theorem isSignAfter_of_isWordChar (h : isWordChar c = true) : isSignAfter (some c) = false := by
  rw [Bool.eq_false_iff]
  intro hc
  simp only [isSignAfter, List.contains_eq_mem, List.mem_cons, List.not_mem_nil, or_false,
    decide_eq_true_eq] at hc
  rcases hc with rfl | rfl | rfl | rfl | rfl | rfl | rfl <;> exact absurd h (by decide)

theorem Word.nesting_eq_zero (h : Word t) : ∀ c ∈ t, nesting c = 0 := by
  intro c hc
  rw [nesting_eq_zero_iff]
  exact ⟨ne_of_isWordChar (h.chars c hc) (by decide), ne_of_isWordChar (h.chars c hc) (by decide)⟩

theorem Word.nested (h : Word t) : Nested t := nested_of_forall h.nesting_eq_zero

/-- The characters of a number are digits and points. -/
theorem Numeral.digit_or_point {n : ℕ} {p : ℤ} (h : Numeral t n p) :
    ∀ c ∈ t, c.isDigit = true ∨ c = '.' := by
  cases h with
  | whole _ hw => exact fun c hc => .inl (hw c hc)
  | pointed _ hw hf =>
      intro c hc
      rcases List.mem_append.1 hc with hc | hc
      · exact .inl (hw c hc)
      · rcases List.mem_cons.1 hc with rfl | hc
        · exact .inr rfl
        · exact .inl (hf c hc)

theorem isWordChar_of_digit_or_point (h : c.isDigit = true ∨ c = '.') : isWordChar c = true := by
  rcases h with h | rfl
  · simp [isWordChar, Char.isAlphanum, h]
  · decide

theorem Numeral.word {n : ℕ} {p : ℤ} (h : Numeral t n p) : Word t := by
  constructor
  · cases h with
    | whole hne => exact hne
    | pointed => simp
  · intro c hc
    exact isWordChar_of_digit_or_point (h.digit_or_point c hc)

theorem isPlainName_iff : isPlainName t = true ↔
    ∃ c r, t = c :: r ∧ c.isAlpha = true ∧ ∀ d ∈ r, d.isAlphanum = true ∨ d = '_' := by
  cases t with
  | nil => simp [isPlainName]
  | cons c r => simp [isPlainName]

theorem word_name (h : isPlainName t = true) : Word t := by
  obtain ⟨c, r, rfl, hc, hr⟩ := isPlainName_iff.1 h
  constructor
  · simp
  · intro d hd
    rcases List.mem_cons.1 hd with rfl | hd
    · simp [isWordChar, Char.isAlphanum, hc]
    · rcases hr d hd with hd | rfl
      · simp [isWordChar, hd]
      · decide

/-- A name in ASCII is a name. -/
theorem isIdentifier_of_isPlainName (h : isPlainName t = true) : isIdentifier t = true := by
  obtain ⟨c, r, rfl, hc, hr⟩ := isPlainName_iff.1 h
  refine Text.isIdentifier_iff.2 ⟨c, r, rfl, by simp [isLetter, Text.isLatinLetter, hc], ?_⟩
  intro d hd
  rcases hr d hd with hd | rfl
  · simp only [Char.isAlphanum, Bool.or_eq_true] at hd
    rcases hd with hd | hd <;>
      simp [Text.isNameChar, Text.isAlphanumeric, isLetter, Text.isLatinLetter, hd]
  · simp [Text.isNameChar]

/-- The names of the functions are names in ASCII. -/
theorem isPlainName_of_ofName? {x : String} {f : Elementary} (h : Elementary.ofName? x = some f) :
    isPlainName x.toList = true := by
  unfold Elementary.ofName? at h
  split at h <;> first | decide | simp at h

end Words

/-! ### The ends of a derivation -/

variable {l : Level} {s t u v w : List Char} {e : Expr κ} {c : Char}

/-- One digit. -/
theorem Spells.digit {d : Char} (hd : d.isDigit = true) :
    Spells (κ := κ) .atom [d] (.const (Arithmetic.ofDecimal (Literal.natural [d]) 0)) :=
  .number (.whole (by simp) (by simpa using hd))

theorem Blanks.nested_between (hu : Blanks u) (hv : Blanks v) (ht : Nested t) :
    Nested (u ++ t ++ v) :=
  (hu.nested.append ht).append hv.nested

/-- Operands around an operator. -/
theorem Nested.joined (hs : Nested s) (hw : Blanks w) (hc : nesting c = 0) (hu : Blanks u)
    (ht : Nested t) : Nested (s ++ w ++ c :: (u ++ t)) :=
  (hs.append hw.nested).append (.char hc (hu.nested.append ht))

/-- The brackets of a derivation match. -/
theorem Spells.nested (h : Spells l t e) : Nested t := by
  induction h with
  | number hn => exact hn.word.nested
  | name hx => exact (word_name hx).nested
  | call hx hw hu hv _ ih =>
      have hname := (word_name (isPlainName_of_ofName? hx)).nested
      exact (hname.append hw.nested).append (.group (hu.nested_between hv ih) .nil)
  | group hu hv _ ih => exact .group (hu.nested_between hv ih) .nil
  | atom _ ih | unsigned _ ih | factor _ ih | term _ ih => exact ih
  | power _ hw hu _ ihs iht | product _ hw hu _ ihs iht | quotient _ hw hu _ ihs iht
  | sum _ hw hu _ ihs iht | difference _ hw hu _ ihs iht => exact ihs.joined hw rfl hu iht
  | negative hu _ ih | positive hu _ ih => exact .char rfl (hu.nested.append ih)

theorem Word.first (h : Word t) : ∃ c r, t = c :: r ∧ isWordChar c = true := by
  obtain ⟨c, r, rfl⟩ := List.exists_cons_of_ne_nil h.ne_nil
  exact ⟨c, r, rfl, h.chars c List.mem_cons_self⟩

theorem Word.last (h : Word t) : ∃ r c, t = r ++ [c] ∧ isWordChar c = true := by
  refine ⟨t.dropLast, t.getLast h.ne_nil, (List.dropLast_append_getLast h.ne_nil).symm, ?_⟩
  exact h.chars _ (List.getLast_mem h.ne_nil)

/-- A derivation starts with a character that is not blank, and below the level of signs that
character is no sign. -/
theorem Spells.first (h : Spells l t e) :
    ∃ c r, t = c :: r ∧ isBlank c = false ∧ (l.rank ≤ 1 → c ≠ '+' ∧ c ≠ '-') := by
  have word : ∀ {t : List Char}, Word t → ∀ r, ∃ c r', t ++ r = c :: r' ∧ isBlank c = false ∧
      (Level.atom.rank ≤ 1 → c ≠ '+' ∧ c ≠ '-') := by
    intro t ht r
    obtain ⟨c, r', rfl, hc⟩ := ht.first
    exact ⟨c, r' ++ r, rfl, isBlank_of_isWordChar hc, fun _ =>
      ⟨ne_of_isWordChar hc (by decide), ne_of_isWordChar hc (by decide)⟩⟩
  induction h with
  | number hn => simpa using word hn.word []
  | name hx => simpa using word (word_name hx) []
  | call hx => simpa using word (word_name (isPlainName_of_ofName? hx)) _
  | group => exact ⟨'(', _, rfl, by decide, fun _ => by decide⟩
  | atom _ ih =>
      obtain ⟨c, r, rfl, hc, hsign⟩ := ih
      exact ⟨c, r, rfl, hc, fun _ => hsign (by decide)⟩
  | power _ _ _ _ ih _ =>
      obtain ⟨c, r, rfl, hc, hsign⟩ := ih
      exact ⟨c, _, rfl, hc, fun _ => hsign (by decide)⟩
  | unsigned _ ih | factor _ ih | term _ ih =>
      obtain ⟨c, r, rfl, hc, -⟩ := ih
      exact ⟨c, r, rfl, hc, by simp [Level.rank]⟩
  | product _ _ _ _ ih _ | quotient _ _ _ _ ih _ | sum _ _ _ _ ih _ | difference _ _ _ _ ih _ =>
      obtain ⟨c, r, rfl, hc, -⟩ := ih
      exact ⟨c, _, rfl, hc, by simp [Level.rank]⟩
  | negative => exact ⟨'-', _, rfl, by decide, by simp [Level.rank]⟩
  | positive => exact ⟨'+', _, rfl, by decide, by simp [Level.rank]⟩

/-- A derivation ends with a character that is not blank and after which a plus or minus is an
operator. -/
theorem Spells.last (h : Spells l t e) :
    ∃ r c, t = r ++ [c] ∧ isBlank c = false ∧ isSignAfter (some c) = false := by
  have word : ∀ {t : List Char}, Word t →
      ∃ r c, t = r ++ [c] ∧ isBlank c = false ∧ isSignAfter (some c) = false := by
    intro t ht
    obtain ⟨r, c, rfl, hc⟩ := ht.last
    exact ⟨r, c, rfl, isBlank_of_isWordChar hc, isSignAfter_of_isWordChar hc⟩
  have closed : ∀ r : List Char, ∃ r' c, r ++ [')'] = r' ++ [c] ∧ isBlank c = false ∧
      isSignAfter (some c) = false := fun r => ⟨r, ')', rfl, by decide, by decide⟩
  have behind : ∀ {t : List Char} (r : List Char),
      (∃ r' c, t = r' ++ [c] ∧ isBlank c = false ∧ isSignAfter (some c) = false) →
      ∃ r' c, r ++ t = r' ++ [c] ∧ isBlank c = false ∧ isSignAfter (some c) = false := by
    rintro t r ⟨r', c, rfl, hc, hsign⟩
    exact ⟨r ++ r', c, (List.append_assoc ..).symm, hc, hsign⟩
  induction h with
  | number hn => exact word hn.word
  | name hx => exact word (word_name hx)
  | @call x f w u t v => exact behind _ (closed ('(' :: (u ++ t ++ v)))
  | @group u t v => exact closed ('(' :: (u ++ t ++ v))
  | atom _ ih | unsigned _ ih | factor _ ih | term _ ih => exact ih
  | power _ _ _ _ _ ih | product _ _ _ _ _ ih | quotient _ _ _ _ _ ih | sum _ _ _ _ _ ih
  | difference _ _ _ _ _ ih => exact behind _ (behind [_] (behind _ ih))
  | negative _ _ ih | positive _ _ ih => exact behind [_] (behind _ ih)

theorem Spells.ne_nil (h : Spells l t e) : t ≠ [] := by
  obtain ⟨c, r, rfl, -⟩ := h.first
  simp

/-- Behind a derivation and blanks a plus or minus is an operator. -/
theorem Spells.isSignAfter_eq_false (h : Spells l t e) (hw : Blanks w) (before : Option Char) :
    isSignAfter (lastSeen before (t ++ w)) = false := by
  obtain ⟨r, c, rfl, hc, hsign⟩ := h.last
  rw [lastSeen_append, hw.lastSeen_eq, lastSeen_append, lastSeen_cons, hc]
  exact hsign

/-! ### Operators of a derivation -/

/-- The binary operators. -/
def isOperator (c : Char) : Bool := ['+', '-', '*', '/', '^'].contains c

/-- The binary operators of a level and of the tighter ones. -/
def Level.operators : Level → List Char
  | .sum => ['+', '-', '*', '/', '^']
  | .product => ['*', '/', '^']
  | .signed | .power => ['^']
  | .atom => []

theorem mem_operators (h : isOperator c = true) :
    c = '+' ∨ c = '-' ∨ c = '*' ∨ c = '/' ∨ c = '^' := by
  simpa [isOperator] using h

section Operators

variable {ops : Char → Bool} {before : Option Char}

theorem isOperator_of_additive (h : (c == '+' || c == '-') = true) : isOperator c = true := by
  rcases (by simpa using h : c = '+' ∨ c = '-') with rfl | rfl <;> rfl

theorem isOperator_of_multiplicative (h : (c == '*' || c == '/') = true) :
    isOperator c = true := by
  rcases (by simpa using h : c = '*' ∨ c = '/') with rfl | rfl <;> rfl

theorem nesting_of_isOperator (h : isOperator c = true) : nesting c = 0 := by
  rcases mem_operators h with rfl | rfl | rfl | rfl | rfl <;> rfl

theorem isBlank_of_isOperator (h : isOperator c = true) : isBlank c = false := by
  rcases mem_operators h with rfl | rfl | rfl | rfl | rfl <;> decide

theorem isSignAfter_of_isOperator (h : isOperator c = true) : isSignAfter (some c) = true := by
  rcases mem_operators h with rfl | rfl | rfl | rfl | rfl <;> decide

theorem isWordChar_of_isOperator (h : isOperator c = true) : isWordChar c = false := by
  rcases mem_operators h with rfl | rfl | rfl | rfl | rfl <;> decide

/-- A character that is no operator and no sign is passed over. -/
theorem lastOperator?_cons_none (hn : nesting c = 0) (hb : isBlank c = false)
    (hc : ops c = true → isSignAfter before = true) (ht : lastOperator? ops 0 (some c) t = none) :
    lastOperator? ops 0 before (c :: t) = none := by
  simp only [lastOperator?, hn, hb, add_zero, Bool.false_eq_true, if_false, ht]
  cases ho : ops c with
  | false => simp
  | true => simp [hc ho]

theorem Nested.lastOperator?_append_none (hn : Nested s)
    (hs : lastOperator? ops 0 before s = none)
    (ht : lastOperator? ops 0 (lastSeen before s) t = none) :
    lastOperator? ops 0 before (s ++ t) = none := by
  refine Notation.lastOperator?_append_none hs ?_
  rwa [hn.nestingOf_eq, add_zero]

/-- A word has no operator. -/
theorem Word.lastOperator?_eq_none (hops : ∀ c, ops c = true → isOperator c = true) (h : Word t) :
    lastOperator? ops 0 before t = none := by
  refine lastOperator?_of_forall ?_ 0 before
  intro c hc
  refine ⟨h.nesting_eq_zero c hc, ?_⟩
  rw [Bool.eq_false_iff]
  intro ho
  have := isWordChar_of_isOperator (hops c ho)
  rw [h.chars c hc] at this
  simp at this

theorem Blanks.lastOperator?_eq_none (hops : ∀ c, ops c = true → isOperator c = true)
    (hw : Blanks w) : lastOperator? ops 0 before w = none := by
  refine lastOperator?_of_forall ?_ 0 before
  intro c hc
  refine ⟨hw.nesting_eq_zero c hc, ?_⟩
  rw [Bool.eq_false_iff]
  intro ho
  have := isBlank_of_isOperator (hops c ho)
  rw [hw c hc] at this
  simp at this

/-- Blanks in front change nothing. -/
theorem Blanks.lastOperator?_append_none (hops : ∀ c, ops c = true → isOperator c = true)
    (hu : Blanks u) (ht : lastOperator? ops 0 before t = none) :
    lastOperator? ops 0 before (u ++ t) = none := by
  refine hu.nested.lastOperator?_append_none (hu.lastOperator?_eq_none hops) ?_
  rwa [hu.lastSeen_eq]

/-- **A text shows an operator of its own level or a tighter one only**, where what stands in front
makes a plus or minus a sign. -/
theorem Spells.lastOperator?_eq_none (hops : ∀ c, ops c = true → isOperator c = true)
    (h : Spells l t e) (hl : ∀ c ∈ l.operators, ops c = false) (hb : isSignAfter before = true) :
    lastOperator? ops 0 before t = none := by
  -- two operands and the operator between them, which is none of those looked for
  have joined : ∀ {s w u t : List Char} {o : Char} {before : Option Char}, Nested s → Blanks w →
      Blanks u → isOperator o = true → ops o = false → lastOperator? ops 0 before s = none →
      lastOperator? ops 0 (some o) t = none →
      lastOperator? ops 0 before (s ++ w ++ o :: (u ++ t)) = none := by
    intro s w u t o before hn hw hu ho hops' hs ht
    have hfront := hn.lastOperator?_append_none hs (hw.lastOperator?_eq_none hops)
    refine (hn.append hw.nested).lastOperator?_append_none hfront ?_
    refine lastOperator?_cons_none (nesting_of_isOperator ho) (isBlank_of_isOperator ho) ?_
      (hu.lastOperator?_append_none hops ht)
    simp [hops']
  -- a sign follows the start of the text or an operator, so that `before` is never an operand
  induction h generalizing before with
  | number hn => exact hn.word.lastOperator?_eq_none hops
  | name hx => exact (word_name hx).lastOperator?_eq_none hops
  | call hx hw hu hv ht _ =>
      have hname := word_name (isPlainName_of_ofName? hx)
      have hfront : lastOperator? ops 0 before _ = none := hname.nested.lastOperator?_append_none
        (hname.lastOperator?_eq_none hops) (hw.lastOperator?_eq_none hops)
      exact (hname.nested.append hw.nested).lastOperator?_append_none hfront
        (lastOperator?_group (hu.nested_between hv ht.nested) ops _)
  | group hu hv ht _ => exact lastOperator?_group (hu.nested_between hv ht.nested) ops _
  | atom _ ih => exact ih (by simp [Level.operators]) hb
  | power hs hw hu _ ihs iht =>
      exact joined hs.nested hw hu rfl (hl _ (by decide)) (ihs (by simp [Level.operators]) hb)
        (iht hl rfl)
  | unsigned _ ih => exact ih hl hb
  | negative hu _ ih | positive hu _ ih =>
      exact lastOperator?_cons_none rfl (by decide) (fun _ => hb)
        (hu.lastOperator?_append_none hops (ih hl rfl))
  | factor _ ih => exact ih (fun c hc => hl c (by simp_all [Level.operators])) hb
  | product hs hw hu _ ihs iht | quotient hs hw hu _ ihs iht =>
      exact joined hs.nested hw hu rfl (hl _ (by decide)) (ihs hl hb)
        (iht (fun c hc => hl c (by simp_all [Level.operators])) rfl)
  | term _ ih => exact ih (fun c hc => hl c (by simp_all [Level.operators])) hb
  | sum hs hw hu _ ihs iht | difference hs hw hu _ ihs iht =>
      exact joined hs.nested hw hu rfl (hl _ (by decide)) (ihs hl hb)
        (iht (fun c hc => hl c (by simp_all [Level.operators])) rfl)

/-- A level below that of sums shows no plus or minus but signs. -/
theorem Spells.lastOperator?_additive (h : Spells l t e) (hl : l.rank ≤ 3)
    (hb : isSignAfter before = true) :
    lastOperator? (fun c => c == '+' || c == '-') 0 before t = none := by
  refine h.lastOperator?_eq_none (fun _ => isOperator_of_additive) ?_ hb
  cases l <;> simp_all [Level.operators, Level.rank]

/-- A level below that of products shows no sign of multiplication or division. -/
theorem Spells.lastOperator?_multiplicative (h : Spells l t e) (hl : l.rank ≤ 2)
    (hb : isSignAfter before = true) :
    lastOperator? (fun c => c == '*' || c == '/') 0 before t = none := by
  refine h.lastOperator?_eq_none (fun _ => isOperator_of_multiplicative) ?_ hb
  cases l <;> simp_all [Level.operators, Level.rank]

/-- The last operator is the one in front of an operand that shows none. -/
theorem Spells.lastOperator?_joined {o : Char} (h : Spells l s e) (hw : Blanks w)
    (ho : isOperator o = true) (hops : ops o = true)
    (ht : lastOperator? ops 0 (some o) t = none) :
    lastOperator? ops 0 none (s ++ w ++ o :: t) = some (s ++ w, o, t) := by
  have hsign := h.isSignAfter_eq_false hw none
  rw [lastSeen_append] at hsign
  have hhere : lastOperator? ops 0 (lastSeen none (s ++ w)) (o :: t) = some ([], o, t) := by
    simp [lastOperator?, nesting_of_isOperator ho, isBlank_of_isOperator ho, hops, ht, hsign]
  rw [lastOperator?_append, (h.nested.append hw.nested).nestingOf_eq, add_zero, hhere]
  simp

/-- An atom shows no power. -/
theorem Spells.firstOutside?_caret (h : Spells .atom t e) (r : List Char) :
    firstOutside? '^' 0 (t ++ r) = (firstOutside? '^' 0 r).map fun p => (t ++ p.1, p.2) := by
  have word : ∀ {t : List Char}, Word t → ∀ r, firstOutside? '^' 0 (t ++ r) =
      (firstOutside? '^' 0 r).map fun p => (t ++ p.1, p.2) := by
    intro t ht r
    refine firstOutside?_of_forall ?_ r
    intro c hc
    exact ⟨ht.nesting_eq_zero c hc, ne_of_isWordChar (ht.chars c hc) (by decide)⟩
  cases h with
  | number hn => exact word hn.word r
  | name hx => exact word (word_name hx) r
  | call hx hw hu hv ht =>
      rw [List.append_assoc, List.append_assoc, word (word_name (isPlainName_of_ofName? hx)),
        hw.firstOutside?_append (by decide), List.cons_append, List.append_assoc,
        List.cons_append, firstOutside?_group (hu.nested_between hv ht.nested)]
      simp [Function.comp_def]
  | group hu hv ht =>
      rw [List.cons_append, List.append_assoc, List.cons_append,
        firstOutside?_group (hu.nested_between hv ht.nested)]
      simp

end Operators

/-! ### Operands of a derivation -/

section Seams

variable {x : Seam}

/-- Digits and points continue a number. -/
theorem lastSeam?_number (h : ∀ c ∈ t, c.isDigit = true ∨ c = '.')
    (hx : x = {} ∨ x = ⟨0, some .number, false⟩) :
    lastSeam? x t = none ∧ (x.run t).depth = 0 := by
  induction t generalizing x with
  | nil =>
      refine ⟨rfl, ?_⟩
      rcases hx with rfl | rfl <;> rfl
  | cons c t ih =>
      obtain ⟨hc, ht⟩ := List.forall_mem_cons.1 h
      have hword := isWordChar_of_digit_or_point hc
      have hopen : c ≠ '(' := ne_of_isWordChar hword (by decide)
      have hunder : c ≠ '_' := by
        rintro rfl
        simp at hc
      have hletter : isLetter c = false := by
        rcases hc with hc | rfl
        · exact Text.isLetter_of_isDigit hc
        · exact Text.isLetter_of_lt (by decide)
      have hkind : operandOf? c = some .number := by
        rcases hc with hc | rfl
        · simp [operandOf?, hopen, hunder, hletter, hc]
        · simp [operandOf?, hletter]
      have hnext : x.next c = ⟨0, some .number, false⟩ := by
        rcases hx with rfl | rfl <;>
          simp [Seam.next, isBlank_of_isWordChar hword, hkind, hopen]
      have hsplit : x.splitsAt c = false := by
        rcases hx with rfl | rfl <;> simp [Seam.splitsAt, hkind, Seam.continues]
      obtain ⟨hnone, hdepth⟩ := ih ht (.inr rfl)
      rw [lastSeam?, Seam.run_cons, hnext, hnone, hsplit]
      exact ⟨rfl, hdepth⟩

/-- Letters, digits and underscores continue a name. -/
theorem lastSeam?_name_rest (h : ∀ c ∈ t, c.isAlphanum = true ∨ c = '_') :
    lastSeam? ⟨0, some .identifier, false⟩ t = none ∧
      Seam.run ⟨0, some .identifier, false⟩ t = ⟨0, some .identifier, false⟩ := by
  induction t with
  | nil => exact ⟨rfl, rfl⟩
  | cons c t ih =>
      obtain ⟨hc, ht⟩ := List.forall_mem_cons.1 h
      have hword : isWordChar c = true := by
        rcases hc with hc | rfl
        · simp [isWordChar, hc]
        · decide
      have hopen : c ≠ '(' := ne_of_isWordChar hword (by decide)
      have hkind : operandOf? c = some .identifier ∨ operandOf? c = some .number := by
        simp only [operandOf?, hopen, if_false]
        split
        · exact .inl rfl
        · rename_i hletter
          have hdigit : c.isDigit = true := by
            simp_all [Char.isAlphanum, isLetter, Text.isLatinLetter]
          simp [hdigit]
      have hnext : Seam.next ⟨0, some .identifier, false⟩ c = ⟨0, some .identifier, false⟩ := by
        rcases hkind with hkind | hkind <;>
          simp [Seam.next, isBlank_of_isWordChar hword, hkind, hopen, Seam.continues]
      have hsplit : Seam.splitsAt ⟨0, some .identifier, false⟩ c = false := by
        rcases hkind with hkind | hkind <;> simp [Seam.splitsAt, hkind, Seam.continues]
      obtain ⟨hnone, hrun⟩ := ih ht
      rw [lastSeam?, Seam.run_cons, hnext, hnone, hsplit]
      exact ⟨rfl, hrun⟩

theorem lastSeam?_name (h : isPlainName t = true) :
    lastSeam? {} t = none ∧ Seam.run {} t = ⟨0, some .identifier, false⟩ := by
  obtain ⟨c, r, rfl, hc, hr⟩ := isPlainName_iff.1 h
  have hword : isWordChar c = true := by simp [isWordChar, Char.isAlphanum, hc]
  have hopen : c ≠ '(' := ne_of_isWordChar hword (by decide)
  have hkind : operandOf? c = some .identifier := by
    simp [operandOf?, hopen, isLetter, Text.isLatinLetter, hc]
  have hnext : Seam.next {} c = ⟨0, some .identifier, false⟩ := by
    simp [Seam.next, isBlank_of_isWordChar hword, hkind, hopen]
  obtain ⟨hnone, hrun⟩ := lastSeam?_name_rest hr
  rw [lastSeam?, Seam.run_cons, hnext, hnone]
  exact ⟨by simp [Seam.splitsAt, hkind, Seam.continues], hrun⟩

/-- Brackets do not meet what stands in front of them, where that is nothing or a name. -/
theorem lastSeam?_group (ht : Nested t) (hd : x.depth = 0)
    (hx : x.before = none ∨ x.before = some .identifier) :
    lastSeam? x ('(' :: (t ++ [')'])) = none ∧ (x.run ('(' :: (t ++ [')']))).depth = 0 := by
  have hblank : isBlank '(' = false := by decide
  have hkind : operandOf? '(' = some .group := by simp [operandOf?]
  have hopen : x.next '(' = ⟨1, some .group, false⟩ := by
    rcases hx with hx | hx <;> simp [Seam.next, hd, hblank, hkind]
  have hsplit : x.splitsAt '(' = false := by
    rcases hx with hx | hx <;> simp [Seam.splitsAt, hkind, Seam.continues, hx]
  have hclose : Seam.next ⟨1, some .group, false⟩ ')' = ⟨0, some .group, false⟩ := by
    simp [Seam.next]
  obtain ⟨hnone, hrun⟩ := ht.lastSeam?_inside (x := ⟨1, some .group, false⟩) (by simp)
  have hrest : lastSeam? ⟨1, some .group, false⟩ (t ++ [')']) = none := by
    refine lastSeam?_append_none hnone ?_
    rw [hrun]
    simp [lastSeam?, Seam.splitsAt]
  -- the scanner enters at depth one, passes the content and leaves behind a closed group
  rw [lastSeam?, Seam.run_cons, hopen, hrest, hsplit, Seam.run_append, hrun, Seam.run_cons, hclose]
  exact ⟨rfl, rfl⟩

/-- After an operator an operand begins anew. -/
theorem lastSeam?_operator (ho : isOperator c = true) (hd : x.depth = 0)
    (ht : lastSeam? {} t = none) :
    lastSeam? x (c :: t) = none ∧ x.run (c :: t) = Seam.run {} t := by
  have hblank := isBlank_of_isOperator ho
  have hkind : operandOf? c = none := by
    rcases mem_operators ho with rfl | rfl | rfl | rfl | rfl <;> decide +kernel
  have hnext : x.next c = {} := by simp [Seam.next, hd, hblank, hkind]
  rw [lastSeam?, Seam.run_cons, hnext, ht]
  exact ⟨by simp [Seam.splitsAt, hkind], rfl⟩

theorem lastSeam?_blanks (hu : Blanks u) (ht : lastSeam? {} t = none) :
    lastSeam? {} (u ++ t) = none ∧ Seam.run {} (u ++ t) = Seam.run {} t := by
  refine ⟨lastSeam?_append_none (hu.lastSeam?_eq_none _) ?_, ?_⟩
  · rwa [hu.run_start]
  · rw [Seam.run_append, hu.run_start]

/-- No two operands of the text meet, and it ends outside brackets. -/
structure Seamless (t : List Char) : Prop where
  seam : lastSeam? {} t = none
  depth : (Seam.run {} t).depth = 0

/-- An operator and an operand behind it, read from any place outside brackets. -/
theorem Seamless.behind (ho : isOperator c = true) (hd : x.depth = 0) (hu : Blanks u)
    (ht : Seamless t) :
    lastSeam? x (c :: (u ++ t)) = none ∧ (x.run (c :: (u ++ t))).depth = 0 := by
  obtain ⟨hblanks, hrun⟩ := lastSeam?_blanks hu ht.seam
  obtain ⟨hnone, hsignRun⟩ := lastSeam?_operator ho hd hblanks
  rw [hsignRun, hrun]
  exact ⟨hnone, ht.depth⟩

theorem Seamless.signed (ho : isOperator c = true) (hu : Blanks u) (ht : Seamless t) :
    Seamless (c :: (u ++ t)) := by
  obtain ⟨hnone, hdepth⟩ := ht.behind (x := {}) ho rfl hu
  exact ⟨hnone, hdepth⟩

theorem Seamless.joined (hs : Seamless s) (hw : Blanks w) (ho : isOperator c = true)
    (hu : Blanks u) (ht : Seamless t) : Seamless (s ++ w ++ c :: (u ++ t)) := by
  have hdepth : (Seam.run {} (s ++ w)).depth = 0 := by
    rw [Seam.run_append]
    exact (hw.run hs.depth).1
  have hfront := lastSeam?_append_none hs.seam (hw.lastSeam?_eq_none _)
  obtain ⟨hrest, hend⟩ := ht.behind ho hdepth hu
  exact ⟨lastSeam?_append_none hfront hrest, by rwa [Seam.run_append]⟩

/-- **No two operands of a derivation meet.** -/
theorem Spells.seamless (h : Spells l t e) : Seamless t := by
  induction h with
  | number hn =>
      obtain ⟨hnone, hdepth⟩ := lastSeam?_number hn.digit_or_point (.inl rfl)
      exact ⟨hnone, hdepth⟩
  | name hx =>
      obtain ⟨hnone, hrun⟩ := lastSeam?_name hx
      exact ⟨hnone, by rw [hrun]⟩
  | call hx hw hu hv ht _ =>
      obtain ⟨hnone, hrun⟩ := lastSeam?_name (isPlainName_of_ofName? hx)
      -- blanks may stand between the name and the bracket
      obtain ⟨hdepth, hbefore⟩ := hw.run (x := ⟨0, some .identifier, false⟩) rfl
      obtain ⟨hgroup, hend⟩ :=
        lastSeam?_group (hu.nested_between hv ht.nested) hdepth (.inr hbefore)
      have hfront := lastSeam?_append_none hnone (hw.lastSeam?_eq_none _)
      refine ⟨lastSeam?_append_none hfront ?_, ?_⟩
      · rwa [Seam.run_append, hrun]
      · rwa [Seam.run_append, Seam.run_append, hrun]
  | group hu hv ht _ =>
      -- nothing stands in front of the brackets
      obtain ⟨hnone, hend⟩ :=
        lastSeam?_group (x := {}) (hu.nested_between hv ht.nested) rfl (.inl rfl)
      exact ⟨hnone, hend⟩
  | atom _ ih | unsigned _ ih | factor _ ih | term _ ih => exact ih
  | power _ hw hu _ ihs iht | product _ hw hu _ ihs iht | quotient _ hw hu _ ihs iht
  | sum _ hw hu _ ihs iht | difference _ hw hu _ ihs iht => exact ihs.joined hw rfl hu iht
  | negative hu _ ih | positive hu _ ih => exact ih.signed rfl hu

end Seams

end Reckoner.Notation
