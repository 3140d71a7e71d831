/-
**Implied products are read as products.**

Two operands that follow each other are a product, and there are two ways to find it.  A text is
brought to canonical form by putting a sign behind a digit or a closing bracket, by what stands next
to each other in the text; and the reader divides a text at its seams, by what kind of operand it
has read.  The first puts signs at some of the seams only, and for every sign it puts in there is a
seam, so that the same expression is read with the signs and without them.

There is one place to go wrong.  A digit in front of a letter may belong to a name, and then no
operands meet.  In names without such digits this does not happen, as long as what looks like a name
is one: underscores and points would hide where a name begins.  In a text that is read all
underscores are inside of names and all points are outside.

Main definitions:

* `Reckoner.Notation.UnbrokenNames` — texts whose names have no digit in front of a letter;
* `Reckoner.Notation.Regular` — underscores are inside of names, and points outside;
* `Reckoner.Notation.Unbroken` — no digit inside a name is in front of a letter.

Main results:

* `Reckoner.Notation.regular_of_parse` — **a text that is read is regular**;
* `Reckoner.Notation.signed_insertProducts` — **the signs of implied products stand at seams**;
* `Reckoner.Expr.parse_insertProducts` — **with the signs of its implied products a text is read as
  without them**.
-/

import Reckoner.Proofs.ImpliedProducts
import Reckoner.Proofs.Ratio
import Reckoner.Proofs.WrittenSigns

set_option autoImplicit false

namespace Reckoner

/-! ### Letters and digits of ASCII -/

namespace Text

variable {c : Char}

set_option maxRecDepth 10000 in
theorem letterRanges_ascii :
    ∀ r ∈ letterRanges, r = (0x41, 0x5A) ∨ r = (0x61, 0x7A) ∨ 0x80 ≤ r.1 := by
  decide

/-- In ASCII the letters are those of the Latin alphabet. -/
theorem isLetter_eq_isAlpha (hc : c.toNat < 0x80) : isLetter c = c.isAlpha := by
  rw [isLetter, isLatinLetter]
  cases ha : c.isAlpha with
  | true => rfl
  | false =>
      rw [Bool.false_or, Bool.eq_false_iff, Ne, inRanges_iff]
      rintro ⟨r, hr, hfirst, hlast⟩
      have hcode : ¬((65 ≤ c.toNat ∧ c.toNat ≤ 90) ∨ (97 ≤ c.toNat ∧ c.toNat ≤ 122)) := by
        intro h
        have halpha : c.isAlpha = true := by
          show (decide (c.val ≥ 65 ∧ c.val ≤ 90) || (c.val ≥ 97 && c.val ≤ 122)) = true
          simpa [UInt32.le_iff_toNat_le] using h
        simp [halpha] at ha
      rcases letterRanges_ascii r hr with rfl | rfl | hge
      · exact hcode (.inl ⟨hfirst, hlast⟩)
      · exact hcode (.inr ⟨hfirst, hlast⟩)
      · omega

theorem otherNumberRanges_ge : ∀ r ∈ otherNumberRanges, 0x80 ≤ r.1 := by
  decide

/-- In ASCII there are no other numeric characters than digits. -/
theorem isAlphanum_of_isAlphanumeric (hc : c.toNat < 0x80) (h : isAlphanumeric c = true) :
    c.isAlphanum = true := by
  simp only [isAlphanumeric, Bool.or_eq_true, isLetter_eq_isAlpha hc] at h
  rw [Char.isAlphanum, Bool.or_eq_true]
  rcases h with ((ha | hd) | hd) | ho
  · exact .inl ha
  · exact .inr hd
  · obtain ⟨r, hr, hfirst, hlast⟩ := inRanges_iff.1 hd
    rcases decimalDigitRanges_ge r hr with rfl | hge
    · exact .inr (by simpa [Char.isDigit, UInt32.le_iff_toNat_le] using And.intro hfirst hlast)
    · omega
  · obtain ⟨r, hr, hfirst, -⟩ := inRanges_iff.1 ho
    have := otherNumberRanges_ge r hr
    omega

end Text

namespace Notation

open Canonical (insertTimes insertProducts impliesProduct)
open Text (isBlank isLetter trim cut?)

variable {κ : Type} [Number κ] {b : Bool} {x : Seam} {c d : Char} {p s t u w l r : List Char}

/-- A text of characters of ASCII. -/
def Ascii (t : List Char) : Prop := ∀ c ∈ t, c.toNat < 0x80

instance (t : List Char) : Decidable (Ascii t) :=
  decidable_of_iff (t.all fun c => c.toNat < 0x80) (by simp [Ascii])

theorem ascii_cons : Ascii (c :: t) ↔ c.toNat < 0x80 ∧ Ascii t := List.forall_mem_cons

theorem ascii_append : Ascii (s ++ t) ↔ Ascii s ∧ Ascii t := List.forall_mem_append

theorem ascii_trim (ht : Ascii t) : Ascii (trim t) := by
  obtain ⟨u, v, -, -, heq⟩ := exists_trim t
  rw [heq, ascii_append, ascii_append] at ht
  exact ht.1.2

/-! ### Names in a text -/

/-- Whether a name goes on behind a character, when `b` tells whether one did in front of it. -/
def nameAfter (b : Bool) (c : Char) : Bool :=
  c.isAlpha || c == '_' || ((c.isDigit || c == '.') && b)

/-- Underscores are inside of names, and points outside.  `b` tells whether the text goes on with a
name. -/
def Regular : Bool → List Char → Prop
  | _, [] => True
  | b, c :: t => (c = '_' → b = true) ∧ (c = '.' → b = false) ∧ Regular (nameAfter b c) t

/-- No digit inside a name is in front of a letter. -/
def Unbroken : Bool → List Char → Prop
  | _, [] => True
  | b, c :: t => (b = true → c.isDigit = true → t.head?.any Char.isAlpha = false) ∧
      Unbroken (nameAfter b c) t

/-- No name in the text has a digit that is directly followed by a letter. -/
def UnbrokenNames (t : List Char) : Prop :=
  ∀ w, w <:+: t → isPlainName w = true → w.IsChain fun c d => (c.isDigit && d.isAlpha) = false

instance (t : List Char) : Decidable (UnbrokenNames t) :=
  decidable_of_iff (t.tails.all fun s => s.inits.all fun w => isPlainName w = true →
      w.IsChain fun c d => (c.isDigit && d.isAlpha) = false) <| by
    simp only [List.all_eq_true, List.mem_tails, List.mem_inits, decide_eq_true_eq, UnbrokenNames,
      List.infix_iff_prefix_suffix]
    exact ⟨fun h w ⟨s, hw, hs⟩ => h s hs w hw, fun h s hs w hw => h w ⟨s, hw, hs⟩⟩

/-- Only characters of names and numbers go on with a name. -/
theorem nameAfter_of_not_isWordChar (hc : isWordChar c = false) (b : Bool) :
    nameAfter b c = false := by
  simp only [isWordChar, Char.isAlphanum, Bool.or_eq_false_iff] at hc
  simp [nameAfter, hc]

/-- Digits and points go on with what is there. -/
theorem nameAfter_of_digit_or_point (h : c.isDigit = true ∨ c = '.') (b : Bool) :
    nameAfter b c = b := by
  rcases h with h | rfl
  · have halpha : c.isAlpha = false := by
      rw [Bool.eq_false_iff]
      intro ha
      have := Text.toNat_of_isAlpha ha
      have := Text.toNat_of_isDigit h
      omega
    have hunder : c ≠ '_' := by
      rintro rfl
      exact absurd h (by decide)
    simp [nameAfter, halpha, hunder, h]
  · rfl

theorem not_isWordChar_of_isBlank (hc : isBlank c = true) : isWordChar c = false := by
  rw [Bool.eq_false_iff]
  intro hword
  simp [isBlank_of_isWordChar hword] at hc

theorem not_isWordChar_of_isOperator (ho : isOperator c = true) : isWordChar c = false := by
  rcases mem_operators ho with rfl | rfl | rfl | rfl | rfl <;> decide

/-! ### Regular texts -/

theorem regular_append :
    Regular b (s ++ t) ↔ Regular b s ∧ Regular (s.foldl nameAfter b) t := by
  induction s generalizing b with
  | nil => simp [Regular]
  | cons c s ih => simp [Regular, ih, and_assoc]

/-- Behind a character that is in no name and no number the text is regular by itself. -/
theorem regular_cons (hc : isWordChar c = false) (b : Bool) :
    Regular b (c :: t) ↔ Regular false t := by
  have hunder : c ≠ '_' := by
    rintro rfl
    exact absurd hc (by decide)
  have hpoint : c ≠ '.' := by
    rintro rfl
    exact absurd hc (by decide)
  simp [Regular, hunder, hpoint, nameAfter_of_not_isWordChar hc]

theorem Blanks.regular (hw : Blanks w) (b : Bool) : Regular b w := by
  induction w generalizing b with
  | nil => trivial
  | cons c w ih =>
      obtain ⟨hc, hw⟩ := List.forall_mem_cons.1 hw
      exact (regular_cons (not_isWordChar_of_isBlank hc) b).2 (ih hw false)

theorem Blanks.regular_append (hw : Blanks w) (ht : Regular false t) :
    Regular false (w ++ t) := by
  induction w with
  | nil => exact ht
  | cons c w ih =>
      obtain ⟨hc, hw⟩ := List.forall_mem_cons.1 hw
      exact (regular_cons (not_isWordChar_of_isBlank hc) false).2 (ih hw)

/-- A text is regular when it is without the blanks around it. -/
theorem regular_of_trim (h : Regular false (trim t)) : Regular false t := by
  obtain ⟨u, v, hu, hv, ht⟩ := exists_trim t
  rw [ht, List.append_assoc]
  exact hu.regular_append (Notation.regular_append.2 ⟨h, hv.regular _⟩)

/-- The characters of a number are in no name. -/
theorem regular_numeral (h : ∀ c ∈ t, c.isDigit = true ∨ c = '.') : Regular false t := by
  induction t with
  | nil => trivial
  | cons c t ih =>
      obtain ⟨hc, ht⟩ := List.forall_mem_cons.1 h
      have hunder : c ≠ '_' := by
        rintro rfl
        simp at hc
      refine ⟨fun heq => absurd heq hunder, fun _ => rfl, ?_⟩
      rw [nameAfter_of_digit_or_point hc]
      exact ih ht

/-- All characters of a name go on with it. -/
theorem regular_name (ht : Ascii t) (h : isIdentifier t = true) : Regular false t := by
  have rest : ∀ r : List Char, Ascii r → (∀ d ∈ r, Text.isNameChar d = true) → Regular true r := by
    intro r hr hall
    induction r with
    | nil => trivial
    | cons d r ih =>
        obtain ⟨hd, hr⟩ := ascii_cons.1 hr
        obtain ⟨hname, hall⟩ := List.forall_mem_cons.1 hall
        have hpoint : d ≠ '.' := by
          rintro rfl
          exact absurd hname (by decide +kernel)
        have hafter : nameAfter true d = true := by
          rw [Text.isNameChar, Bool.or_eq_true, beq_iff_eq] at hname
          rcases hname with hname | rfl
          · have := Text.isAlphanum_of_isAlphanumeric hd hname
            rw [Char.isAlphanum, Bool.or_eq_true] at this
            rcases this with ha | hdigit <;> simp [nameAfter, *]
          · decide
        exact ⟨fun _ => rfl, fun hc => absurd hc hpoint, by rw [hafter]; exact ih hr hall⟩
  obtain ⟨c, r, rfl, hc, hr⟩ := Text.isIdentifier_iff.1 h
  obtain ⟨hascii, hrest⟩ := ascii_cons.1 ht
  rw [Text.isLetter_eq_isAlpha hascii] at hc
  have hunder : c ≠ '_' := by
    rintro rfl
    exact absurd hc (by decide)
  have hafter : nameAfter false c = true := by simp [nameAfter, hc]
  exact ⟨fun heq => absurd heq hunder, fun _ => rfl, by rw [hafter]; exact rest r hrest hr⟩

/-! ### Names and seams -/

/-- What has been read ends in a name, up to here, when `b` says so. -/
def Seam.EndsInName (x : Seam) (b : Bool) : Prop :=
  x.depth = 0 → (b = true ↔ x.before = some .identifier ∧ x.gap = false)

theorem endsInName_start : Seam.EndsInName {} false := by
  intro _
  simp

/-- The kind of operand that a character of ASCII belongs to. -/
theorem operandOf?_ascii (hc : c.toNat < 0x80) (hopen : c ≠ '(') : operandOf? c =
    if c.isAlpha || c == '_' then some .identifier
    else if c.isDigit || c == '.' then some .number
    else none := by
  rw [operandOf?, if_neg hopen, Text.isLetter_eq_isAlpha hc]

/-- Digits and points go on with a name that no blank has ended. -/
theorem next_of_number (hx : x.depth = 0) (hblank : isBlank c = false) (hopen : c ≠ '(')
    (hkind : operandOf? c = some .number) : x.next c =
      ⟨0, some (if x.continues .number = true ∧ x.before = some .identifier then .identifier
        else .number), false⟩ := by
  simp [Seam.next, hx, hblank, hkind, hopen]

/-- **The reader and `nameAfter` agree on the names of a text.** -/
theorem Seam.EndsInName.next (h : x.EndsInName b) (hc : c.toNat < 0x80) :
    (x.next c).EndsInName (nameAfter b c) := by
  intro hdepth
  by_cases hx : x.depth = 0
  · have hb := h hx
    cases hblank : isBlank c with
    | true =>
        have hnext : x.next c = { x with gap := x.before.isSome } := by
          simp [Seam.next, hx, hblank]
        rw [hnext, nameAfter_of_not_isWordChar (not_isWordChar_of_isBlank hblank)]
        cases hbefore : x.before <;> simp
    | false =>
        by_cases hopen : c = '('
        · subst hopen
          simp [Seam.next, hx, hblank, operandOf?_open] at hdepth
        · have hkind := operandOf?_ascii hc hopen
          cases hletter : c.isAlpha || c == '_' with
          | true =>
              have hname : nameAfter b c = true := by simp [nameAfter, hletter]
              simp [Seam.next, hx, hblank, hkind, hletter, hname]
          | false =>
              cases hdigit : c.isDigit || c == '.' with
              | true =>
                  have hname : nameAfter b c = b := by simp [nameAfter, hletter, hdigit]
                  rw [next_of_number hx hblank hopen (by simp [hkind, hletter, hdigit]), hname, hb]
                  cases hbefore : x.before with
                  | none => simp
                  | some k => cases k <;> simp [Seam.continues, hbefore]
              | false =>
                  have hname : nameAfter b c = false := by simp [nameAfter, hletter, hdigit]
                  simp [Seam.next, hx, hblank, hkind, hletter, hdigit, hname]
  · by_cases hclose : c = ')' ∧ x.depth = 1
    · obtain ⟨rfl, hone⟩ := hclose
      rw [next_close hone, nameAfter_of_not_isWordChar (by decide)]
      simp
    · exfalso
      revert hdepth
      rw [Seam.next, if_pos hx]
      split
      · simp
      · split
        · rw [if_neg (by tauto)]
          have hone : x.depth ≠ 1 := fun hone => hclose ⟨‹_›, hone⟩
          show x.depth - 1 = 0 → False
          omega
        · exact hx

theorem Seam.EndsInName.run (h : x.EndsInName b) (ht : Ascii t) :
    (x.run t).EndsInName (t.foldl nameAfter b) := by
  induction t generalizing x b with
  | nil => exact h
  | cons c t ih =>
      obtain ⟨hc, ht⟩ := ascii_cons.1 ht
      exact ih (h.next hc) ht

/-- No operand begins inside a name. -/
theorem Seam.EndsInName.eq_false_of_splitsAt (h : x.EndsInName b) (hc : x.splitsAt c = true) :
    b = false := by
  obtain ⟨hdepth, -, k, -, hcontinues⟩ := exists_operand_of_splitsAt hc
  rw [Bool.eq_false_iff]
  intro hb
  obtain ⟨hbefore, hgap⟩ := (h hdepth).1 hb
  cases k <;> simp [Seam.continues, hbefore, hgap] at hcontinues

/-! ### Texts that are read -/

/-- A text of ASCII that is divided at a place is regular when its parts are. -/
theorem regular_of_lastPlace? {ops : Char → Bool} {o : Option Char}
    (hops : ∀ c, ops c = true → isOperator c = true) (ht : Ascii t)
    (h : lastPlace? ops {} none t = some (l, o, r))
    (hparts : ∀ p ∈ [l, r], Ascii p → Regular false p) : Regular false t := by
  obtain ⟨hl, hr⟩ : (Ascii l → Regular false l) ∧ (Ascii r → Regular false r) := by
    simpa using hparts
  obtain ⟨c, w, rfl, ⟨-, rfl, ho⟩ | ⟨-, rfl, hsplits⟩⟩ := lastPlace?_eq_some h
  · obtain ⟨hl', hr'⟩ := ascii_append.1 ht
    have hword := not_isWordChar_of_isOperator (hops c ho)
    exact regular_append.2 ⟨hl hl', (regular_cons hword _).2 (hr (ascii_cons.1 hr').2)⟩
  · obtain ⟨hl', hr'⟩ := ascii_append.1 ht
    refine regular_append.2 ⟨hl hl', ?_⟩
    rw [(endsInName_start.run hl').eq_false_of_splitsAt hsplits]
    exact hr hr'

/-- Brackets are in no name. -/
theorem regular_bracket (hs : Regular false s) (hr : Regular false r) :
    Regular b ('(' :: (s ++ ')' :: r)) :=
  (regular_cons (by decide) _).2 (regular_append.2 ⟨hs, (regular_cons (by decide) _).2 hr⟩)

/-- A shape of texts that can be read, whose parts are regular. -/
structure Shape.RegularParts (σ : Shape) : Prop where
  ne_other : σ ≠ .other
  parts : ∀ p ∈ σ.parts, Ascii p → Regular false p

theorem regular_of_callShape? {σ : Shape} (ht : Ascii t) (h : callShape? t = some σ)
    (hσ : σ.RegularParts) : Regular false t := by
  unfold callShape? at h
  split at h
  · rename_i l r hcut
    split at h
    · rename_i s hclosing
      split at h
      · rename_i hname
        obtain rfl := Option.some.inj h
        obtain rfl := Text.cut?_eq hcut
        obtain rfl := closing?_eq hclosing
        simp only [ascii_append, ascii_cons] at ht
        obtain ⟨hl, -, hs, -⟩ := ht
        have hfront := regular_of_trim (regular_name (ascii_trim hl) hname)
        exact regular_append.2
          ⟨hfront, regular_bracket (hσ.parts s (by simp [Shape.parts]) hs) trivial⟩
      · simp at h
    · simp at h
  · simp at h

theorem regular_of_atomShape (ht : Ascii t) (h : (atomShape t).RegularParts) :
    Regular false t := by
  unfold atomShape at h
  split at h
  · exact (regular_cons (by decide) _).2 (h.parts _ (by simp [Shape.parts]) (ascii_cons.1 ht).2)
  · exact (regular_cons (by decide) _).2 (h.parts _ (by simp [Shape.parts]) (ascii_cons.1 ht).2)
  · split at h
    · rename_i base exponent hcaret
      obtain rfl := firstOutside?_eq hcaret
      simp only [ascii_append, ascii_cons] at ht
      obtain ⟨hbase, -, hexponent⟩ := ht
      exact regular_append.2 ⟨h.parts base (by simp [Shape.parts]) hbase,
        (regular_cons (by decide) _).2 (h.parts exponent (by simp [Shape.parts]) hexponent)⟩
    · split at h
      · rename_i σ hcall
        exact regular_of_callShape? ht hcall h
      · split at h
        · rename_i hnumeral
          exact regular_numeral (by simpa [isNumeral] using hnumeral)
        · split at h
          · rename_i hname
            exact regular_name ht hname
          · exact absurd rfl h.ne_other

/-- A text is regular when the parts of its shape are. -/
theorem regular_of_shape (ht : Ascii t) (hn : Nested t) (h : (shape t).RegularParts) :
    Regular false t := by
  by_cases hne : t = []
  · obtain rfl := hne
    trivial
  cases he : enclosed? t with
  | some s =>
      obtain rfl := enclosed?_eq he
      rw [shape_group (hn.of_enclosed? he)] at h
      have hs := (ascii_append.1 (ascii_cons.1 ht).2).1
      exact regular_bracket (h.parts s (by simp [Shape.parts]) hs) trivial
  | none =>
      rw [shape_of_not_enclosed hne hn.balanced he] at h
      have hsum := lastPlace?_additive hn
      cases hp : lastOperator? (fun c => c == '+' || c == '-') 0 none t with
      | some p =>
          obtain ⟨l, o, r⟩ := p
          have hpair : (if o = '+' then Shape.sum l r else .difference l r).parts = [l, r] := by
            split <;> rfl
          rw [hp] at hsum
          rw [hp] at h
          exact regular_of_lastPlace? (fun _ => isOperator_of_additive) ht hsum (hpair ▸ h.parts)
      | none =>
          rw [hp, factorShape?_eq hn] at h
          cases hq : lastPlace? (fun c => c == '*' || c == '/') {} none t with
          | some q =>
              obtain ⟨l, o, r⟩ := q
              rw [hq] at h
              exact regular_of_lastPlace? (fun _ => isOperator_of_multiplicative) ht hq
                (parts_factorOf l o r ▸ h.parts)
          | none =>
              rw [hq] at h
              exact regular_of_atomShape ht h

theorem exists_of_bind {α β : Type} {a : Except ParseError α} {f : α → Except ParseError β}
    {e : β} (h : a >>= f = .ok e) : ∃ e', a = .ok e' ∧ f e' = .ok e := by
  cases a with
  | error reason => simp [bind, Except.bind] at h
  | ok e' => exact ⟨e', rfl, h⟩

/-- What is read has parts that are read. -/
theorem exists_of_readShape {σ : Shape} {e : Expr κ} (h : readShape t σ = .ok e) :
    σ ≠ .other ∧ ∀ p ∈ σ.parts, ∃ e' : Expr κ, parse p = .ok e' := by
  have pair {l r : List Char} {join : Expr κ → Expr κ → Expr κ}
      (h : (do return join (← parse l) (← parse r) : Except ParseError (Expr κ)) = .ok e) :
      ∀ p ∈ [l, r], ∃ e' : Expr κ, parse p = .ok e' := by
    obtain ⟨a, ha, h⟩ := exists_of_bind h
    obtain ⟨b, hb, -⟩ := exists_of_bind h
    simp [ha, hb]
  constructor
  · rintro rfl
    simp [readShape] at h
  · cases σ with
    | empty | unbalanced | other | numeral | identifier => simp [Shape.parts]
    | enclosed s | positive s => simpa [Shape.parts] using Exists.intro e h
    | negative s | call name s =>
        obtain ⟨a, ha, -⟩ := exists_of_bind h
        simp [Shape.parts, ha]
    | sum l r | difference l r | product l r | quotient l r | power l r => exact pair h

/-- **A text that is read is regular.** -/
theorem regular_of_parse {e : Expr κ} (ht : Ascii t) (h : parse t = .ok e) : Regular false t := by
  -- by induction on the length of the text, whose parts are shorter
  induction hn : t.length using Nat.strong_induction_on generalizing t e with
  | _ n ih =>
      subst hn
      have hshape := h
      rw [parse_eq] at hshape
      obtain ⟨hother, hparts⟩ := exists_of_readShape hshape
      have hn := nested_of_balanced (balanced_of_parse h).2
      refine regular_of_trim (regular_of_shape (ascii_trim ht) hn ⟨hother, fun p hp hascii => ?_⟩)
      obtain ⟨e', he'⟩ := hparts p hp
      have := length_lt_of_mem_parts hp
      have := Text.length_trim_le t
      exact ih p.length (by omega) hascii he' rfl

/-! ### Names without broken digits -/

theorem isPlainName_append (hw : isPlainName w = true)
    (hs : ∀ d ∈ s, d.isAlphanum = true ∨ d = '_') : isPlainName (w ++ s) = true := by
  obtain ⟨c, r, rfl, hc, hr⟩ := isPlainName_iff.1 hw
  refine isPlainName_iff.2 ⟨c, r ++ s, rfl, hc, fun d hd => ?_⟩
  rcases List.mem_append.1 hd with hd | hd
  · exact hr d hd
  · exact hs d hd

/-- A text ends in a name if `b` says so. -/
def EndsIn (b : Bool) (p : List Char) : Prop :=
  b = true → ∃ w, isPlainName w = true ∧ w <:+ p

theorem EndsIn.next (hp : EndsIn b p) (hunder : c = '_' → b = true)
    (hpoint : c = '.' → b = false) : EndsIn (nameAfter b c) (p ++ [c]) := by
  have longer (hb : b = true) (hc : c.isAlphanum = true ∨ c = '_') :
      ∃ w, isPlainName w = true ∧ w <:+ p ++ [c] := by
    obtain ⟨w, hw, q, rfl⟩ := hp hb
    exact ⟨w ++ [c], isPlainName_append hw (by simpa using hc), q, by simp⟩
  intro hname
  simp only [nameAfter, Bool.or_eq_true, Bool.and_eq_true, beq_iff_eq] at hname
  rcases hname with (ha | rfl) | ⟨hd | rfl, hb⟩
  · exact ⟨[c], by simp [isPlainName, ha], List.suffix_append p [c]⟩
  · exact longer (hunder rfl) (.inr rfl)
  · exact longer hb (.inl (by simp [Char.isAlphanum, hd]))
  · simp [hpoint rfl] at hb

/-- Behind a name a digit is not in front of a letter. -/
theorem UnbrokenNames.head (h : UnbrokenNames (p ++ c :: t)) (hp : EndsIn true p)
    (hc : c.isDigit = true) : t.head?.any Char.isAlpha = false := by
  rw [Bool.eq_false_iff]
  intro hletter
  cases t with
  | nil => simp at hletter
  | cons d t =>
      have hd : d.isAlpha = true := by simpa using hletter
      obtain ⟨w, hw, q, rfl⟩ := hp rfl
      have hname : isPlainName (w ++ [c, d]) = true :=
        isPlainName_append hw (by simp [Char.isAlphanum, hc, hd])
      have hchain := h (w ++ [c, d]) ⟨q, t, by simp⟩ hname
      have hapart := List.isChain_pair.1 (List.isChain_append.1 hchain).2.1
      simp [hc, hd] at hapart

/-- The names of a text are those of its pieces. -/
theorem unbroken_append (h : Unbroken b (s ++ t)) :
    Unbroken b s ∧ Unbroken (s.foldl nameAfter b) t := by
  induction s generalizing b with
  | nil => exact ⟨trivial, h⟩
  | cons c s ih =>
      obtain ⟨hwhole, hrest⟩ := h
      obtain ⟨hs, ht⟩ := ih hrest
      refine ⟨⟨fun hb hc => ?_, hs⟩, ht⟩
      have := hwhole hb hc
      cases s with
      | nil => rfl
      | cons d s => exact this

/-- **In a regular text with unbroken names no digit of a name is in front of a letter**, and signs
that are put in behind brackets and behind digits do not hide where names begin. -/
theorem unbroken_of_regular {wants : Char → List Char → Bool}
    (hwants : ∀ c r, c.toNat < 0x80 → wants c r = true →
      c = ')' ∨ c.isDigit = true ∧ r.head?.any Char.isAlpha = true)
    (ht : Ascii t) (hnames : UnbrokenNames (p ++ t)) (hp : EndsIn b p)
    (h : Regular b (insertTimes wants t)) : Unbroken b t := by
  induction t generalizing p b with
  | nil => trivial
  | cons c t ih =>
      obtain ⟨hc, ht⟩ := ascii_cons.1 ht
      have hhead (hb : b = true) (hdigit : c.isDigit = true) :
          t.head?.any Char.isAlpha = false := hnames.head (hb ▸ hp) hdigit
      obtain ⟨hunder, hpoint, hrest⟩ : (c = '_' → b = true) ∧ (c = '.' → b = false) ∧
          Regular (nameAfter b c) (insertTimes wants t) := by
        rw [insertTimes] at h
        cases hsign : wants c t with
        | false => simpa [hsign, Regular] using h
        | true =>
            rw [hsign, if_pos rfl] at h
            obtain ⟨hunder, hpoint, h⟩ := h
            refine ⟨hunder, hpoint, ?_⟩
            -- no name goes on behind the character, so that a sign behind it ends none
            have hend : nameAfter b c = false := by
              rcases hwants c t hc hsign with rfl | ⟨hdigit, hletter⟩
              · exact nameAfter_of_not_isWordChar (by decide) b
              · cases b with
                | true => simp [hhead rfl hdigit] at hletter
                | false => exact nameAfter_of_digit_or_point (.inl hdigit) false
            rw [hend]
            exact (regular_cons (by decide) _).1 h
      refine ⟨hhead, ih ht ?_ (hp.next hunder hpoint) hrest⟩
      rwa [List.append_assoc]

/-! ### Implied products -/

/-- In ASCII a sign is wanted behind a closing bracket, in front of a bracket or a letter, or behind
a digit in front of a letter. -/
theorem impliesProduct_cases (hd : d.toNat < 0x80) (h : impliesProduct d r = true) :
    d = ')' ∧ (r.head? = some '(' ∨ r.head?.any Char.isAlpha = true) ∨
      d.isDigit = true ∧ r.head?.any Char.isAlpha = true := by
  simp only [impliesProduct, Canonical.digitThenLetter, Canonical.closeThenOpen,
    Canonical.closeThenName, Bool.or_eq_true, Bool.and_eq_true, beq_iff_eq] at h
  rcases h with (⟨hdigit, hletter⟩ | ⟨hclose, hopen⟩) | ⟨⟨hclose, hletter⟩, -⟩
  · exact .inr ⟨Text.isDigit_of_isDecimalDigit hd hdigit, hletter⟩
  · exact .inl ⟨hclose, .inl hopen⟩
  · exact .inl ⟨hclose, .inr hletter⟩

/-- What has been read behind the character `d` outside brackets. -/
structure Seam.Behind (x : Seam) (d : Char) (b : Bool) : Prop where
  depth : x.depth = 0
  names : x.EndsInName b
  digit : d.isDigit = true → b = false → x.before = some .number
  close : d = ')' → x.before = some .group

theorem behind_open : Seam.Behind {} '(' false :=
  ⟨rfl, endsInName_start, fun hdigit => absurd hdigit (by decide), fun hc => absurd hc (by decide)⟩

theorem behind_close : Seam.Behind ⟨0, some .group, false⟩ ')' false :=
  ⟨rfl, fun _ => by simp, fun hdigit => absurd hdigit (by decide), fun _ => rfl⟩

theorem Seam.Behind.next (h : x.Behind d b) (hc : c.toNat < 0x80) (hnesting : nesting c = 0) :
    (x.next c).Behind c (nameAfter b c) := by
  obtain ⟨hopen, hclose⟩ := nesting_eq_zero_iff.1 hnesting
  have hdepth := depth_next h.depth hnesting
  refine ⟨hdepth, h.names.next hc, fun hdigit hb => ?_, fun heq => absurd heq hclose⟩
  have hword : isWordChar c = true := by simp [isWordChar, Char.isAlphanum, hdigit]
  have hkind : operandOf? c = some .number := by
    have hletter := Text.isLetter_of_isDigit hdigit
    have hunder : c ≠ '_' := by
      rintro rfl
      exact absurd hdigit (by decide)
    simp [operandOf?, hopen, hletter, hunder, hdigit]
  have hnext := next_of_number h.depth (isBlank_of_isWordChar hword) hopen hkind
  have hnames := h.names.next hc hdepth
  rw [hb, hnext] at hnames
  rw [hnext]
  -- the number does not go on with a name
  split at hnames
  · simp at hnames
  · rename_i hnot
    rw [if_neg hnot]

/-- **Where a sign is wanted, two operands meet.** -/
theorem Seam.Behind.splitsAt (h : x.Behind d b) (hd : d.toNat < 0x80) (hc : c.toNat < 0x80)
    (hwhole : b = true → d.isDigit = true → c.isAlpha = false)
    (hsign : impliesProduct d (c :: t) = true) : x.splitsAt c = true := by
  have hletter (ha : c.isAlpha = true) : isBlank c = false ∧ operandOf? c = some .identifier := by
    have hl : isLetter c = true := by rw [Text.isLetter_eq_isAlpha hc, ha]
    have hopen : c ≠ '(' := by
      rintro rfl
      exact absurd ha (by decide)
    exact ⟨Text.isBlank_of_isLetter hl, by simp [operandOf?, hopen, hl]⟩
  rcases impliesProduct_cases hd hsign with ⟨hclose, hopen | ha⟩ | ⟨hdigit, ha⟩
  · obtain rfl := Option.some.inj hopen
    have hblank : isBlank '(' = false := by decide
    simp [Seam.splitsAt, h.depth, hblank, operandOf?_open, Seam.continues, h.close hclose]
  · obtain ⟨hblank, hkind⟩ := hletter (by simpa using ha)
    simp [Seam.splitsAt, h.depth, hblank, hkind, Seam.continues, h.close hclose]
  · have hb : b = false := by
      rw [Bool.eq_false_iff]
      intro hb
      simp [hwhole hb hdigit] at ha
    obtain ⟨hblank, hkind⟩ := hletter (by simpa using ha)
    simp [Seam.splitsAt, h.depth, hblank, hkind, Seam.continues, h.digit hdigit hb]

/-- The sign of an implied product behind a character, if there is one. -/
def signBehind (d : Char) (t : List Char) : List Char := if impliesProduct d t then ['*'] else []

theorem insertProducts_cons (d : Char) (t : List Char) :
    insertProducts (d :: t) = d :: (signBehind d t ++ insertProducts t) := by
  rw [Canonical.insertProducts_eq, Canonical.insertProducts_eq, insertTimes, signBehind]
  split <;> rfl

theorem signBehind_open (t : List Char) : signBehind '(' t = [] := by
  refine if_neg fun h => ?_
  rcases impliesProduct_cases (by decide) h with ⟨hclose, -⟩ | ⟨hdigit, -⟩
  · exact absurd hclose (by decide)
  · exact absurd hdigit (by decide)

theorem signBehind_nil (hd : d.toNat < 0x80) : signBehind d [] = [] := by
  refine if_neg fun h => ?_
  rcases impliesProduct_cases hd h with ⟨-, hopen | hletter⟩ | ⟨-, hletter⟩
  · simp at hopen
  · simp at hletter
  · simp at hletter

/-- **The signs of implied products stand at seams**, behind what has been read. -/
theorem Seam.Behind.signed (h : x.Behind d b) (hn : Nested t) (hd : d.toNat < 0x80) (ht : Ascii t)
    (hu : Unbroken b t)
    (hwhole : b = true → d.isDigit = true → t.head?.any Char.isAlpha = false) :
    Signed x t (signBehind d t ++ insertProducts t) := by
  induction hn generalizing x d b with
  | nil =>
      rw [signBehind_nil hd]
      exact .nil
  | @char c t hc _ ih =>
      -- a sign behind `d` stands in front of `c`, and what is read behind `c` is the same with it
      obtain ⟨hcode, ht⟩ := ascii_cons.1 ht
      have hrest := ih (h.next hcode hc) hcode ht hu.2 fun hb hdigit =>
        hu.1 (by rwa [nameAfter_of_digit_or_point (.inl hdigit)] at hb) hdigit
      rw [insertProducts_cons c t, signBehind]
      split
      · rename_i hsign
        have hsplits : x.splitsAt c = true := h.splitsAt hd hcode (by simpa using hwhole) hsign
        rw [next_of_splitsAt hsplits] at hrest
        exact .sign hsplits (.char hc hrest)
      · exact .char hc hrest
  | @group s t _ _ ihs iht =>
      -- the content has its products by itself, since no sign is wanted in front of a `)`
      obtain ⟨hopen, ht⟩ := ascii_cons.1 ht
      obtain ⟨hs, hclose, ht⟩ : Ascii s ∧ _ ∧ Ascii t := by
        simpa only [ascii_append, ascii_cons] using ht
      obtain ⟨hus, hut⟩ := unbroken_append hu.2
      rw [nameAfter_of_not_isWordChar (by decide)] at hus
      have hut := hut.2
      rw [nameAfter_of_not_isWordChar (by decide)] at hut
      have hcontent := ihs behind_open hopen hs hus (by simp)
      have hrest := iht behind_close hclose ht hut (by simp)
      rw [signBehind_open, List.nil_append] at hcontent
      have hbreaks : Canonical.Breaks (')' :: t) := by
        intro d hd
        obtain rfl := Option.some.inj hd
        decide
      rw [insertProducts_cons '(', signBehind_open, List.nil_append, hbreaks.insertProducts_append,
        insertProducts_cons ')', signBehind]
      split
      · rename_i hsign
        have hsplits : x.splitsAt '(' = true := h.splitsAt hd hopen (by simp) hsign
        exact .sign hsplits (.group hcontent hrest)
      · exact .group hcontent hrest

/-- The signs of implied products stand at seams. -/
theorem signed_insertProducts (hn : Nested t) (ht : Ascii t) (hu : Unbroken false t) :
    Signed {} t (insertProducts t) := by
  have := behind_open.signed hn (by decide) ht hu (by simp)
  rwa [signBehind_open] at this

/-! ### Reading -/

theorem insertTimes_never (t : List Char) : insertTimes (fun _ _ => false) t = t := by
  induction t with
  | nil => rfl
  | cons c t ih => simp [insertTimes, ih]

/-- Signs do not change what the brackets match. -/
theorem balancedFrom_insertTimes (wants : Char → List Char → Bool) (depth : ℕ) (t : List Char) :
    balancedFrom depth (insertTimes wants t) = balancedFrom depth t := by
  induction t generalizing depth with
  | nil => rfl
  | cons c t ih =>
      rw [insertTimes]
      split <;> simp [balancedFrom, ih]

theorem ascii_insertProducts (ht : Ascii t) : Ascii (insertProducts t) := by
  intro c hc
  rw [Canonical.insertProducts_eq] at hc
  rcases Canonical.mem_insertTimes hc with hc | rfl
  · exact ht c hc
  · decide

theorem toOption_eq_some_iff {α : Type} {a : Except ParseError α} {e : α} :
    a.toOption = some e ↔ a = .ok e := by
  cases a <;> simp [Except.toOption]

/-- **With the signs of its implied products a text is read as without them.** -/
theorem parse_insertProducts_iff (ht : Ascii t) (hnames : UnbrokenNames t) (e : Expr κ) :
    parse (insertProducts t) = .ok e ↔ parse t = .ok e := by
  have hp : EndsIn false [] := fun hb => by simp at hb
  have hread (hn : Nested t) (hu : Unbroken false t) :
      parse (insertProducts t) = .ok e ↔ parse t = .ok e := by
    rw [← toOption_eq_some_iff, ← toOption_eq_some_iff,
      (signed_insertProducts hn ht hu).parse_toOption]
  constructor
  · intro h
    have hn := (nested_of_parse h).balanced
    have hregular := regular_of_parse (ascii_insertProducts ht) h
    rw [Canonical.insertProducts_eq] at hn hregular
    rw [balanced, balancedFrom_insertTimes] at hn
    have hwants (c : Char) (r : List Char) (hc : c.toNat < 0x80) (h : impliesProduct c r = true) :
        c = ')' ∨ c.isDigit = true ∧ r.head?.any Char.isAlpha = true :=
      (impliesProduct_cases hc h).imp_left And.left
    have hu := unbroken_of_regular (p := []) hwants ht hnames hp hregular
    exact (hread (nested_of_balanced hn) hu).1 h
  · intro h
    have hregular := regular_of_parse ht h
    rw [← insertTimes_never t] at hregular
    have hu := unbroken_of_regular (p := []) (by simp) ht hnames hp hregular
    exact (hread (nested_of_parse h) hu).2 h

end Notation

/-! ### Strings -/

open Notation Canonical

variable {κ : Type} [Number κ]

/-- **The signs of implied products are where the reader finds products.**  A text of ASCII in whose
names no digit is directly followed by a letter is read as the same expression with these signs and
without them, and it is no expression with them when it is none without. -/
theorem Expr.parse_insertProducts {t : String} (ascii : Ascii t.toList)
    (names : UnbrokenNames t.toList) (e : Expr κ) :
    Expr.parse (String.ofList (insertProducts t.toList)) = .ok e ↔ Expr.parse t = .ok e := by
  rw [Expr.parse, Expr.parse, String.toList_ofList]
  exact parse_insertProducts_iff ascii names e

/-- Products are implied between brackets, behind a bracket and behind a number, next to a power, a
difference and blanks. -/
theorem Expr.parse_insertProducts_brackets :
    let t := "(2x)(y)z^2 - 3y"
    let two : Expr Ratio := .const ⟨2⟩
    let three : Expr Ratio := .const ⟨3⟩
    Ascii t.toList ∧ UnbrokenNames t.toList ∧
      String.ofList (insertProducts t.toList) = "(2*x)*(y)*z^2 - 3*y" ∧
      Expr.parse t = .ok (.sub (.mul (.mul (.mul two (.var "x")) (.var "y"))
        (.pow (.var "z") two)) (.mul three (.var "y"))) := by
  intro t two three
  have hascii : Ascii t.toList := by decide
  have hnames : UnbrokenNames t.toList := by decide +kernel
  have hsigns : String.ofList (insertProducts t.toList) = "(2*x)*(y)*z^2 - 3*y" := by decide
  refine ⟨hascii, hnames, hsigns, (parse_insertProducts hascii hnames _).1 ?_⟩
  have digit {d : Char} {n : ℚ} (hd : d.isDigit = true)
      (hn : Arithmetic.ofDecimal (Literal.natural [d]) 0 = (⟨n⟩ : Ratio)) :
      Spells .atom [d] (.const (⟨n⟩ : Ratio)) :=
    hn ▸ Spells.digit hd
  have htwo : Spells .atom ['2'] two := digit rfl (by decide +kernel)
  have hthree : Spells .atom ['3'] three := digit rfl (by decide +kernel)
  have hname (x : String) (hx : isPlainName x.toList = true) :
      Spells (κ := Ratio) .signed x.toList (.var x) := .unsigned (.atom (.name hx))
  have hblank : Blanks [' '] := by decide
  have hdouble := Spells.product (.factor (.unsigned (.atom htwo))) blanks_nil blanks_nil
    (hname "x" (by decide))
  have hy := Spells.group blanks_nil blanks_nil (.term (.factor (hname "y" (by decide))))
  have hsquare := Spells.power (.name (x := "z") (by decide)) blanks_nil blanks_nil
    (.unsigned (.atom htwo))
  have hfront := Spells.product (.product (.factor (.unsigned (.atom
    (.group blanks_nil blanks_nil (.term hdouble))))) blanks_nil blanks_nil
      (.unsigned (.atom hy))) blanks_nil blanks_nil (.unsigned hsquare)
  have hlast := Spells.product (.factor (.unsigned (.atom hthree))) blanks_nil blanks_nil
    (hname "y" (by decide))
  rw [hsigns]
  exact (Spells.difference (.term hfront) hblank hblank hlast).parse_eq_ok

end Reckoner
