/-
**The shape of a text in plain notation.**

The grammar of plain notation is read off a text from the outside in.  A text without blanks at
its ends is tried in this order:

* a pair of brackets around everything;
* a sum or a difference, divided at the last plus or minus;
* a product or a quotient, divided at the last sign of multiplication or division or at the last
  seam between two adjacent operands, whichever comes later;
* a sign in front;
* a power, divided at the first `^`;
* a function and its argument;
* a number, a name.

Dividing sums and products at their last operator groups them to the left, and dividing powers at
the first groups them to the right.

Main definitions:

* `Reckoner.Notation.Shape` — the ways a text can be divided;
* `Reckoner.Notation.isIdentifier` — names;
* `Reckoner.Notation.shape` — the way a text is divided;
* `Reckoner.Notation.length_lt_of_mem_parts` — the parts are shorter than the whole.
-/

import Reckoner.Notation.Operators
import Reckoner.Text.Scan

set_option autoImplicit false

namespace Reckoner.Notation

open Text (isLetter isAlphanumeric trim cut?)

/-- The ways a text can be divided. -/
inductive Shape
  | empty
  | unbalanced
  | enclosed (inner : List Char)
  | sum (l r : List Char)
  | difference (l r : List Char)
  | product (l r : List Char)
  | quotient (l r : List Char)
  | negative (rest : List Char)
  | positive (rest : List Char)
  | power (base exponent : List Char)
  | call (name argument : List Char)
  | numeral
  | identifier
  | other

/-- The parts that are texts in plain notation themselves. -/
def Shape.parts : Shape → List (List Char)
  | .enclosed e | .negative e | .positive e | .call _ e => [e]
  | .sum l r | .difference l r | .product l r | .quotient l r | .power l r => [l, r]
  | _ => []

/-- A name: a letter, then letters, digits and underscores. -/
def isIdentifier : List Char → Bool
  | [] => false
  | c :: cs => isLetter c && cs.all fun d => isAlphanumeric d || d == '_'

/-- A number: digits and points. -/
def isNumeral (cs : List Char) : Bool := cs.all fun c => c.isDigit || c == '.'

/-- A product or a quotient.  Of the last operator and the last seam the later one divides. -/
def factorShape? (cs : List Char) : Option Shape :=
  let seam? := lastSeam? {} cs
  match lastOperator? (fun c => c == '*' || c == '/') 0 none cs with
  | some (l, o, r) =>
      match seam? with
      | some (l', r') =>
          if l'.length < l.length then some (if o = '*' then .product l r else .quotient l r)
          else some (.product l' r')
      | none => some (if o = '*' then .product l r else .quotient l r)
  | none => seam?.map fun p => .product p.1 p.2

/-- A function with its argument in brackets up to the end. -/
def callShape? (cs : List Char) : Option Shape :=
  match cut? '(' cs with
  | some (l, r) =>
      match closing? 1 r with
      | some (argument, []) =>
          if isIdentifier (trim l) then some (.call (trim l) argument) else none
      | _ => none
  | none => none

/-- The shape of a text that is no sum, product or quotient and not in brackets as a whole. -/
def atomShape (cs : List Char) : Shape :=
  match cs with
  | '-' :: rest => .negative rest
  | '+' :: rest => .positive rest
  | cs =>
      match firstOutside? '^' 0 cs with
      | some (base, exponent) => .power base exponent
      | none =>
          match callShape? cs with
          | some s => s
          | none =>
              if isNumeral cs then .numeral
              else if isIdentifier cs then .identifier
              else .other

/-- The shape of a text without blanks at its ends. -/
def shape (cs : List Char) : Shape :=
  if cs.isEmpty then .empty
  else if !balanced cs then .unbalanced
  else match enclosed? cs with
    | some inner => .enclosed inner
    | none =>
        match lastOperator? (fun c => c == '+' || c == '-') 0 none cs with
        | some (l, o, r) => if o = '+' then .sum l r else .difference l r
        | none => (factorShape? cs).getD (atomShape cs)

/-! ### The parts of a text are shorter -/

/-- All parts of a shape are shorter than `n`. -/
def Shape.Below (n : Nat) (s : Shape) : Prop := ∀ p ∈ s.parts, p.length < n

theorem Shape.below_pair {n : Nat} {l r : List Char} (hl : l.length < n) (hr : r.length < n) :
    ∀ p ∈ [l, r], p.length < n := by
  simp [hl, hr]

theorem factorShape?_below {cs : List Char} {s : Shape} (h : factorShape? cs = some s) :
    s.Below cs.length := by
  have seam : ∀ {l r}, lastSeam? {} cs = some (l, r) → (Shape.product l r).Below cs.length := by
    intro l r hs
    obtain ⟨rfl, hr⟩ := lastSeam?_eq hs
    have hl := left_ne_nil_of_lastSeam? rfl hs
    have := List.length_pos_iff.2 hr
    have := List.length_pos_iff.2 hl
    refine Shape.below_pair ?_ ?_ <;> simp <;> omega
  have operator : ∀ {l r o},
      lastOperator? (fun c => c == '*' || c == '/') 0 none cs = some (l, o, r) →
        (if o = '*' then Shape.product l r else .quotient l r).Below cs.length := by
    intro l r o ho
    obtain rfl := lastOperator?_eq ho
    split <;> refine Shape.below_pair ?_ ?_ <;> simp <;> omega
  unfold factorShape? at h
  dsimp only at h
  split at h
  · rename_i ho
    split at h
    · rename_i hs
      split at h
      · obtain rfl := Option.some.inj h; exact operator ho
      · obtain rfl := Option.some.inj h; exact seam hs
    · obtain rfl := Option.some.inj h; exact operator ho
  · obtain ⟨p, hp, rfl⟩ := Option.map_eq_some_iff.1 h
    exact seam hp

theorem callShape?_below {cs : List Char} {s : Shape} (h : callShape? cs = some s) :
    s.Below cs.length := by
  unfold callShape? at h
  split at h
  · rename_i hc
    split at h
    · rename_i ha
      split at h
      · obtain rfl := Option.some.inj h
        rw [Text.cut?_eq hc, closing?_eq ha]
        intro p hp
        obtain rfl := by simpa [Shape.parts] using hp
        simp; omega
      · simp at h
    · simp at h
  · simp at h

theorem atomShape_below (cs : List Char) : (atomShape cs).Below cs.length := by
  unfold atomShape
  split
  · simp [Shape.Below, Shape.parts]
  · simp [Shape.Below, Shape.parts]
  · split
    · rename_i hp
      rw [firstOutside?_eq hp]
      refine Shape.below_pair ?_ ?_ <;> simp <;> omega
    · split
      · rename_i hc
        exact callShape?_below hc
      · split
        · simp [Shape.Below, Shape.parts]
        · split <;> simp [Shape.Below, Shape.parts]

theorem shape_below (cs : List Char) : (shape cs).Below cs.length := by
  unfold shape
  split
  · simp [Shape.Below, Shape.parts]
  · split
    · simp [Shape.Below, Shape.parts]
    · split
      · rename_i he
        rw [enclosed?_eq he]
        intro p hp
        obtain rfl := List.mem_singleton.1 hp
        simp only [List.length_cons, List.length_append, List.length_nil]
        omega
      · split
        · rename_i ho
          obtain rfl := lastOperator?_eq ho
          split <;> refine Shape.below_pair ?_ ?_ <;> simp <;> omega
        · cases hf : factorShape? cs with
          | none => exact atomShape_below cs
          | some s => exact factorShape?_below hf

/-- Every part of a text is shorter than the text. -/
theorem length_lt_of_mem_parts {cs p : List Char} (h : p ∈ (shape cs).parts) :
    p.length < cs.length := shape_below cs p h

end Reckoner.Notation
