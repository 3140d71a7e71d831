/-
**The zero form of an equation.**

An equation is brought to zero as a text: its sides are written down with a minus between them and
brackets around the right one, and the result is read once more.  For this to be the difference of
the sides, the minus has to be the place where the text is divided, whatever the sides are.

It is no sign, because a text that is read does not end like one behind which signs stand: its last
part is read too, and the smallest parts end in a digit, a point, a character of a name or a closing
bracket.  It is outside brackets, because those of the left side match; nothing behind it divides
the text, because the right side is in brackets; and the brackets at the ends of the whole do not
belong together, because the text goes on behind the left side.

Main definitions:

* `Reckoner.Notation.Shape.Spans` — how a text is put together when it has a given shape;
* `Reckoner.Notation.EndsOperand` — texts behind which a plus or minus is an operator.

Main results:

* `Reckoner.Notation.spans_shape` — **a text is put together from the parts of its shape**;
* `Reckoner.Notation.endsOperand_of_parse` — **behind a text that is read a minus is no sign**;
* `Reckoner.Notation.parse_difference` — a minus and a group behind a text are a difference;
* `Reckoner.Expr.parse_zeroForm` — **an equation becomes the difference of its sides**.
-/

import Reckoner.Equation.Solve
import Reckoner.Proofs.ArgumentBrackets
import Reckoner.Proofs.ImpliedReading

set_option autoImplicit false

namespace Reckoner

namespace Notation

open Canonical (parenthesized)
open Text (isBlank trim)

variable {κ : Type} [Number κ] {c : Char} {l r s t u : List Char}

/-! ### Texts without blanks at their ends -/

/-- What is left of a text that is not blank. -/
theorem solid_trim (h : trim t ≠ []) : Solid (trim t) where
  first := by
    obtain ⟨u, c, r, ht, hu, hc⟩ := Text.exists_first h
    exact ⟨c, Text.trimRight r, by rw [ht, Text.trim_blanks_append hu hc], hc⟩
  last := by
    rw [trim, Text.trimRight, Ne, List.reverse_eq_nil_iff] at h
    have hlast := List.head_dropWhile_not isBlank h
    obtain ⟨d, r, hr⟩ := List.exists_cons_of_ne_nil h
    refine ⟨r.reverse, d, ?_, by simpa only [hr, List.head_cons] using hlast⟩
    rw [trim, Text.trimRight, hr, List.reverse_cons]

/-- Only the ends matter. -/
theorem Solid.append (hs : Solid s) (ht : Solid t) (u : List Char) : Solid (s ++ (u ++ t)) where
  first := by
    obtain ⟨c, r, rfl, hc⟩ := hs.first
    exact ⟨c, r ++ (u ++ t), rfl, hc⟩
  last := by
    obtain ⟨r, d, rfl, hd⟩ := ht.last
    exact ⟨s ++ (u ++ r), d, by simp, hd⟩

theorem solid_parenthesized (t : List Char) : Solid (parenthesized t) where
  first := ⟨'(', t ++ [')'], rfl, by decide⟩
  last := ⟨'(' :: t, ')', rfl, by decide⟩

/-! ### The text of a shape -/

/-- How a text is put together from the parts of its shape. -/
def Shape.Spans (t : List Char) : Shape → Prop
  | .empty => t = []
  | .unbalanced => balanced t = false
  | .enclosed s => t = parenthesized s
  | .sum l r => t = l ++ '+' :: r
  | .difference l r => t = l ++ '-' :: r
  | .product l r => t = l ++ '*' :: r ∨ t = l ++ r
  | .quotient l r => t = l ++ '/' :: r
  | .negative r => t = '-' :: r
  | .positive r => t = '+' :: r
  | .power l r => t = l ++ '^' :: r
  | .call name s => ∃ l, trim l = name ∧ isIdentifier name = true ∧ t = l ++ parenthesized s
  | .numeral => isNumeral t = true
  | .identifier => isIdentifier t = true
  | .other => True

theorem ops_of_lastOperator? {ops : Char → Bool} {depth : ℤ} {before : Option Char} {o : Char}
    (h : lastOperator? ops depth before t = some (l, o, r)) : ops o = true := by
  induction t generalizing depth before l with
  | nil => simp [lastOperator?] at h
  | cons c t ih =>
      simp only [lastOperator?] at h
      split at h
      · rename_i hrest
        obtain ⟨rfl, rfl, rfl⟩ := by simpa using h
        exact ih hrest
      · split at h
        · rename_i hop
          obtain ⟨-, rfl, -⟩ := by simpa using h
          simp only [Bool.and_eq_true] at hop
          exact hop.1.2
        · simp at h

theorem spans_of_callShape? {σ : Shape} (h : callShape? t = some σ) : σ.Spans t := by
  unfold callShape? at h
  split at h
  · rename_i l r hcut
    split at h
    · rename_i s hclosing
      split at h
      · rename_i hname
        obtain rfl := Option.some.inj h
        refine ⟨l, rfl, hname, ?_⟩
        rw [Text.cut?_eq hcut, closing?_eq hclosing]
        rfl
      · simp at h
    · simp at h
  · simp at h

theorem spans_atomShape (t : List Char) : (atomShape t).Spans t := by
  unfold atomShape
  split
  · rfl
  · rfl
  · split
    · rename_i hcaret
      exact firstOutside?_eq hcaret
    · split
      · rename_i hcall
        exact spans_of_callShape? hcall
      · split
        · assumption
        · split
          · assumption
          · trivial

theorem spans_of_factorShape? {σ : Shape} (h : factorShape? t = some σ) : σ.Spans t := by
  have operator {l r : List Char} {o : Char}
      (ho : lastOperator? (fun c => c == '*' || c == '/') 0 none t = some (l, o, r)) :
      (if o = '*' then Shape.product l r else .quotient l r).Spans t := by
    have hkind := ops_of_lastOperator? ho
    have htext := lastOperator?_eq ho
    split
    · rename_i hstar
      exact .inl (hstar ▸ htext)
    · rename_i hstar
      obtain rfl : o = '/' := by simpa [hstar] using hkind
      exact htext
  have seam {l r : List Char} (hs : lastSeam? {} t = some (l, r)) : (Shape.product l r).Spans t :=
    .inr (lastSeam?_eq hs).1
  unfold factorShape? at h
  dsimp only at h
  split at h
  · rename_i ho
    split at h
    · rename_i hs
      split at h
      · exact Option.some.inj h ▸ operator ho
      · exact Option.some.inj h ▸ seam hs
    · exact Option.some.inj h ▸ operator ho
  · obtain ⟨p, hp, rfl⟩ := Option.map_eq_some_iff.1 h
    exact seam hp

/-- **A text is put together from the parts of its shape.** -/
theorem spans_shape (t : List Char) : (shape t).Spans t := by
  unfold shape
  split
  · rename_i hempty
    exact List.isEmpty_iff.1 hempty
  · split
    · rename_i hb
      show balanced t = false
      simpa using hb
    · split
      · rename_i he
        exact enclosed?_eq he
      · split
        · rename_i ho
          have hkind := ops_of_lastOperator? ho
          have htext := lastOperator?_eq ho
          split
          · rename_i hplus
            obtain rfl := hplus
            exact htext
          · rename_i _ r o _ hplus
            obtain rfl : o = '-' := by simpa [hplus] using hkind
            exact htext
        · cases hf : factorShape? t with
          | none => exact spans_atomShape t
          | some σ => exact spans_of_factorShape? hf

/-! ### The end of a text that is read -/

/-- A text behind which a plus or minus is an operator. -/
def EndsOperand (t : List Char) : Prop := ∀ before, isSignAfter (lastSeen before t) = false

theorem endsOperand_concat (hblank : isBlank c = false) (hsign : isSignAfter (some c) = false)
    (t : List Char) : EndsOperand (t ++ [c]) := by
  intro before
  rw [lastSeen_append, lastSeen_cons, hblank]
  exact hsign

theorem endsOperand_parenthesized (t : List Char) : EndsOperand (parenthesized t) :=
  endsOperand_concat (by decide) (by decide) ('(' :: t)

/-- Only the last part of a text matters. -/
theorem EndsOperand.append (ht : EndsOperand t) (s : List Char) : EndsOperand (s ++ t) := by
  intro before
  rw [lastSeen_append]
  exact ht _

theorem EndsOperand.cons (ht : EndsOperand t) (c : Char) : EndsOperand (c :: t) :=
  ht.append [c]

/-- Blanks behind a text do not matter. -/
theorem EndsOperand.append_blanks (ht : EndsOperand t) (hu : Blanks u) : EndsOperand (t ++ u) := by
  intro before
  rw [lastSeen_append, hu.lastSeen_eq]
  exact ht before

theorem endsOperand_of_trim (h : EndsOperand (trim t)) : EndsOperand t := by
  obtain ⟨u, v, hu, hv, ht⟩ := exists_trim t
  rw [ht]
  exact (h.append u).append_blanks hv

/-- Signs do not stand behind a text of characters of which none is an operator, an opening bracket
or a comma. -/
theorem endsOperand_of_forall (ht : Solid t) (h : ∀ c ∈ t, isSignAfter (some c) = false) :
    EndsOperand t := by
  obtain ⟨r, c, rfl, hc⟩ := ht.last
  exact endsOperand_concat hc (h c (by simp)) r

set_option maxRecDepth 2000 in
theorem isSignAfter_of_isNameChar (hc : Text.isNameChar c = true) :
    isSignAfter (some c) = false := by
  rw [Bool.eq_false_iff]
  intro hsign
  rcases isOperator_of_isSignAfter hsign with ho | rfl | rfl
  · rcases mem_operators ho with rfl | rfl | rfl | rfl | rfl <;>
      exact absurd hc (by decide)
  · exact absurd hc (by decide)
  · exact absurd hc (by decide)

/-- A text ends in an operand when the parts of its shape do. -/
theorem Shape.Spans.endsOperand {σ : Shape} (ht : Solid t) (hb : balanced t = true)
    (hσ : σ.Spans t) (hother : σ ≠ .other) (hparts : ∀ p ∈ σ.parts, EndsOperand p) :
    EndsOperand t := by
  cases σ with
  | empty =>
      obtain ⟨c, r, hfirst, -⟩ := ht.first
      rw [hfirst] at hσ
      simp [Spans] at hσ
  | unbalanced => simp [Spans, hb] at hσ
  | other => exact absurd rfl hother
  | enclosed s =>
      obtain rfl := hσ
      exact endsOperand_parenthesized s
  | call name s =>
      obtain ⟨l, -, -, rfl⟩ := hσ
      exact (endsOperand_parenthesized s).append l
  | negative r | positive r =>
      obtain rfl := hσ
      exact (hparts r (by simp [parts])).cons _
  | sum l r | difference l r | quotient l r | power l r =>
      obtain rfl := hσ
      exact ((hparts r (by simp [parts])).cons _).append l
  | product l r =>
      have hr := hparts r (by simp [parts])
      rcases hσ with rfl | rfl
      · exact (hr.cons '*').append l
      · exact hr.append l
  | numeral =>
      have hdigits : ∀ c ∈ t, c.isDigit = true ∨ c = '.' := by simpa [Spans, isNumeral] using hσ
      refine endsOperand_of_forall ht fun c hc => ?_
      exact isSignAfter_of_isWordChar (isWordChar_of_digit_or_point (hdigits c hc))
  | identifier =>
      refine endsOperand_of_forall ht fun c hc => ?_
      exact isSignAfter_of_isNameChar (Text.isNameChar_of_mem hσ c hc)

/-- **Behind a text that is read a plus or minus is an operator.** -/
theorem endsOperand_of_parse {e : Expr κ} (h : parse t = .ok e) : EndsOperand t := by
  -- by induction on the length of the text, whose parts are shorter
  induction hn : t.length using Nat.strong_induction_on generalizing t e with
  | _ n ih =>
      subst hn
      have hshape := h
      rw [parse_eq] at hshape
      obtain ⟨hother, hparts⟩ := exists_of_readShape hshape
      obtain ⟨hne, hb⟩ := balanced_of_parse h
      refine endsOperand_of_trim
        ((spans_shape (trim t)).endsOperand (solid_trim hne) hb hother fun p hp => ?_)
      obtain ⟨e', he'⟩ := hparts p hp
      have := length_lt_of_mem_parts hp
      have := Text.length_trim_le t
      exact ih p.length (by omega) he' rfl

/-! ### A difference put together -/

/-- A text in front of a minus and a group is divided at that minus. -/
theorem shape_difference (hs : Nested s) (hne : s ≠ []) (hends : EndsOperand s) (hu : Blanks u)
    (ht : Nested t) : shape (s ++ '-' :: (u ++ parenthesized t)) =
      .difference s (u ++ parenthesized t) := by
  have hgroup : Nested (parenthesized t) := .group ht .nil
  have hnested : Nested (s ++ '-' :: (u ++ parenthesized t)) :=
    hs.append (.char rfl (hu.nested.append hgroup))
  have hright : lastOperator? (fun c => c == '+' || c == '-') 0 (some '-')
      (u ++ parenthesized t) = none :=
    hu.lastOperator?_append_none (fun _ => isOperator_of_additive) (lastOperator?_group ht _ _)
  have hminus : lastOperator? (fun c => c == '+' || c == '-') 0 (lastSeen none s)
      ('-' :: (u ++ parenthesized t)) = some ([], '-', u ++ parenthesized t) := by
    have hblank : isBlank '-' = false := by decide
    simp [lastOperator?, nesting, hblank, hright, hends none]
  have hplace : lastOperator? (fun c => c == '+' || c == '-') 0 none
      (s ++ '-' :: (u ++ parenthesized t)) = some (s, '-', u ++ parenthesized t) := by
    rw [lastOperator?_append, hs.nestingOf_eq, add_zero, hminus]
    simp
  rw [shape_of_not_enclosed (by simp) hnested.balanced (enclosed?_append hs hne (by simp)), hplace]
  rfl

/-- **A minus and a group behind a text that is read are a difference**, with blanks around the
minus. -/
theorem parse_difference {a b : Expr κ} (hs : parse s = .ok a) (ht : parse t = .ok b)
    {v : List Char} (hv : Blanks v) (hu : Blanks u) :
    parse (trim s ++ (v ++ '-' :: (u ++ parenthesized (trim t)))) = .ok (.sub a b) := by
  obtain ⟨hs', -⟩ := balanced_of_parse hs
  obtain ⟨ht', -⟩ := balanced_of_parse ht
  have hleft := solid_trim hs'
  have hright := solid_trim ht'
  have hgroup := solid_parenthesized (trim t)
  have hsolid : Solid (trim s ++ (v ++ '-' :: (u ++ parenthesized (trim t)))) := by
    simpa using hleft.append hgroup (v ++ '-' :: u)
  have hread : parse (trim s) = .ok a := by rw [parse_congr hleft.trim_eq, hs]
  have hread' : parse (trim t) = .ok b := by rw [parse_congr hright.trim_eq, ht]
  have hminuend : parse (trim s ++ v) = .ok a := by
    rw [← hs]
    exact parse_congr (by simpa using hleft.trim_padded blanks_nil hv)
  have hsubtrahend : parse (u ++ parenthesized (trim t)) = .ok b := by
    rw [← parse_parenthesized hread']
    refine parse_congr ?_
    rw [hgroup.trim_eq]
    simpa using hgroup.trim_padded hu blanks_nil
  have hshape := shape_difference ((nested_of_parse hread).append hv.nested)
    (by simp [hs']) ((endsOperand_of_parse hread).append_blanks hv) hu (nested_of_parse hread')
  rw [List.append_assoc] at hshape
  -- the minus is where the text is divided, whatever the sides contain
  rw [parse_eq, hsolid.trim_eq, hshape]
  dsimp only [readShape]
  rw [hminuend, hsubtrahend]
  rfl

end Notation

/-! ### Equations -/

section Equations

open Notation

variable {κ : Type} [Number κ] {l r : String}

theorem zeroFormChars_append {l : List Char} (hl : '=' ∉ l) (r : List Char) :
    zeroFormChars (l ++ '=' :: r) =
      Text.trim l ++ ([' '] ++ '-' :: ([' '] ++ Canonical.parenthesized (Text.trim r))) := by
  have hcut : Text.cut? '=' (l ++ '=' :: r) = some (l, r) := by
    rw [cut?_append fun c hc (heq : c = '=') => hl (heq ▸ hc)]
    simp [Text.cut?]
  rw [zeroFormChars, hcut]
  simp [Canonical.parenthesized]

/-- **An equation becomes the difference of its sides**: what its zero form is read as is the
difference of what they are read as. -/
theorem Expr.parse_zeroForm {a b : Expr κ} (hl : '=' ∉ l.toList) (ha : Expr.parse l = .ok a)
    (hb : Expr.parse r = .ok b) : Expr.parse (zeroForm (l ++ "=" ++ r)) = .ok (.sub a b) := by
  have htext : (l ++ "=" ++ r).toList = l.toList ++ '=' :: r.toList := by simp
  rw [Expr.parse, zeroForm, String.toList_ofList, htext, zeroFormChars_append hl]
  exact parse_difference ha hb (by decide) (by decide)

/-- With a bracket at the end of the left side and at the beginning of the right one, and signs in
front of both. -/
theorem Expr.parse_zeroForm_signedSides :
    let left : Expr Float := .sub (minus (.var "a")) (.var "b")
    let right : Expr Float := .add (.var "c") (minus (.var "d"))
    '=' ∉ "-a-(b)".toList ∧ Expr.parse "-a-(b)" = .ok left ∧
      Expr.parse " (c)+-d" = .ok right ∧
      Expr.parse (zeroForm ("-a-(b)" ++ "=" ++ " (c)+-d")) = .ok (.sub left right) := by
  intro left right
  have name {x : String} (hx : isPlainName x.toList = true) :
      Spells (κ := Float) .signed x.toList (.var x) := .unsigned (.atom (.name hx))
  have group {x : String} (hx : isPlainName x.toList = true) :
      Spells (κ := Float) .product ('(' :: (x.toList ++ [')'])) (.var x) :=
    .factor (.unsigned (.atom (.tight_group (.term (.factor (name hx))))))
  have hl : '=' ∉ "-a-(b)".toList := by decide
  have ha : Expr.parse "-a-(b)" = .ok left := by
    have htext : "-a-(b)" = String.ofList ([] ++ ('-' :: ['a'] ++ '-' :: '(' :: (['b'] ++ [')'])) ++
        []) := rfl
    rw [htext]
    exact Expr.parse_spelled (by decide) (by decide)
      (.tight_difference (.term (.factor (.tight_negative (name (x := "a") (by decide)))))
        (group (x := "b") (by decide)))
  have hb : Expr.parse " (c)+-d" = .ok right := by
    have htext : " (c)+-d" = String.ofList ([' '] ++
        ('(' :: (['c'] ++ [')']) ++ '+' :: '-' :: ['d']) ++ []) := rfl
    rw [htext]
    exact Expr.parse_spelled (by decide) (by decide)
      (.tight_sum (.term (group (x := "c") (by decide)))
        (.factor (.tight_negative (name (x := "d") (by decide)))))
  exact ⟨hl, ha, hb, Expr.parse_zeroForm hl ha hb⟩

end Equations

end Reckoner
