/-
**Operators outside brackets.**

A text is divided at an operator that stands outside all brackets, or at the seam between two
operands that follow each other without an operator.

A plus or minus is a sign and not an operator when nothing but blanks stands in front of it, or
when the last character before it is an operator, an opening bracket or a comma.

Main definitions:

* `Reckoner.Notation.lastOperator?` — the two sides of the last operator of a kind;
* `Reckoner.Notation.firstOutside?` — the two sides of the first occurrence of a character;
* `Reckoner.Notation.Seam` — what has been read when two operands may meet;
* `Reckoner.Notation.lastSeam?` — the two sides of the last place where two operands meet.
-/

import Reckoner.Notation.Brackets
import Reckoner.Text.Blank
import Reckoner.Text.Letter

set_option autoImplicit false

namespace Reckoner.Notation

open Text (isBlank isLetter)

/-! ### Explicit operators -/

/-- Whether a plus or minus is a sign after the character `before`, the last one that is not
blank. -/
def isSignAfter (before : Option Char) : Bool :=
  match before with
  | none => true
  | some c => ['+', '-', '*', '/', '^', '(', ','].contains c

/-- The two sides of the last operator among `ops` that stands outside brackets and is not a
sign, and that operator. -/
def lastOperator? (ops : Char → Bool) :
    Int → Option Char → List Char → Option (List Char × Char × List Char)
  | _, _, [] => none
  | depth, before, c :: cs =>
      match lastOperator? ops (depth + nesting c) (if isBlank c then before else some c) cs with
      | some (l, o, r) => some (c :: l, o, r)
      | none =>
          if nesting c = 0 && depth = 0 && ops c && !isSignAfter before then some ([], c, cs)
          else none

theorem lastOperator?_eq {ops : Char → Bool} {depth : Int} {before : Option Char}
    {cs l r : List Char} {o : Char} (h : lastOperator? ops depth before cs = some (l, o, r)) :
    cs = l ++ o :: r := by
  induction cs generalizing depth before l with
  | nil => simp [lastOperator?] at h
  | cons c cs ih =>
      simp only [lastOperator?] at h
      split at h
      · rename_i hr
        obtain ⟨rfl, rfl, rfl⟩ := by simpa using h
        simp [ih hr]
      · split at h <;> simp_all

/-- The two sides of the first occurrence of `target` outside brackets. -/
def firstOutside? (target : Char) : Int → List Char → Option (List Char × List Char)
  | _, [] => none
  | depth, c :: cs =>
      if nesting c = 0 ∧ c = target ∧ depth = 0 then some ([], cs)
      else (firstOutside? target (depth + nesting c) cs).map fun p => (c :: p.1, p.2)

theorem firstOutside?_eq {target : Char} {depth : Int} {cs l r : List Char}
    (h : firstOutside? target depth cs = some (l, r)) : cs = l ++ target :: r := by
  induction cs generalizing depth l with
  | nil => simp [firstOutside?] at h
  | cons c cs ih =>
      simp only [firstOutside?] at h
      split at h
      · simp_all
      · obtain ⟨p, hp, he⟩ := Option.map_eq_some_iff.1 h
        obtain ⟨rfl, rfl⟩ := Prod.mk.inj he
        simp [ih hp]

/-! ### Adjacent operands -/

/-- The kinds of operands. -/
inductive Operand
  | number | identifier | group
deriving DecidableEq

/-- The kind of operand that a character outside brackets belongs to. -/
def operandOf? (c : Char) : Option Operand :=
  if c = '(' then some .group
  else if isLetter c || c == '_' then some .identifier
  else if c.isDigit || c == '.' then some .number
  else none

/-- What has been read before a character: the number of open brackets, the operand that ended
last, and whether blanks followed it. -/
structure Seam where
  /-- The number of open brackets. -/
  depth : Nat := 0
  /-- The operand that ended just before, if one did. -/
  before : Option Operand := none
  /-- Whether blanks followed that operand. -/
  gap : Bool := false

/-- Whether a character of the operand `current` goes on with what has been read.  A name goes on
with digits, and with a bracket that makes it a function call; a number or a name goes on with its
own kind unless a blank stands between. -/
def Seam.continues (s : Seam) (current : Operand) : Bool :=
  match s.before, current with
  | none, _ => true
  | some .identifier, .group => true
  | some .identifier, .number => !s.gap
  | some .identifier, .identifier => !s.gap
  | some .number, .number => !s.gap
  | some .number, _ => false
  | some .group, _ => false

/-- What has been read after one more character.  Digits inside a name belong to the name. -/
def Seam.next (s : Seam) (c : Char) : Seam :=
  if s.depth ≠ 0 then
    if c = '(' then { s with depth := s.depth + 1 }
    else if c = ')' then
      if s.depth = 1 then ⟨0, some .group, false⟩ else { s with depth := s.depth - 1 }
    else s
  else if isBlank c then { s with gap := s.before.isSome }
  else
    match operandOf? c with
    | none => {}
    | some current =>
        let inName := s.continues current && s.before = some .identifier && current = .number
        { depth := if c = '(' then 1 else 0
          before := some (if inName then .identifier else current)
          gap := false }

/-- Whether an operand begins at a character and does not go on with what has been read. -/
def Seam.splitsAt (s : Seam) (c : Char) : Bool :=
  s.depth == 0 && !isBlank c && (operandOf? c).any fun current => !s.continues current

/-- The two sides of the last place outside brackets where two operands meet. -/
def lastSeam? : Seam → List Char → Option (List Char × List Char)
  | _, [] => none
  | s, c :: cs =>
      match lastSeam? (s.next c) cs with
      | some (l, r) => some (c :: l, r)
      | none => if s.splitsAt c then some ([], c :: cs) else none

theorem lastSeam?_eq {s : Seam} {cs l r : List Char} (h : lastSeam? s cs = some (l, r)) :
    cs = l ++ r ∧ r ≠ [] := by
  induction cs generalizing s l with
  | nil => simp [lastSeam?] at h
  | cons c cs ih =>
      simp only [lastSeam?] at h
      split at h
      · rename_i hr
        obtain ⟨rfl, rfl⟩ := by simpa using h
        simpa using ih hr
      · split at h
        · obtain ⟨rfl, rfl⟩ := by simpa using h
          simp
        · simp at h

/-- Nothing meets the first operand of a text. -/
theorem left_ne_nil_of_lastSeam? {s : Seam} {cs l r : List Char} (hs : s.before = none)
    (h : lastSeam? s cs = some (l, r)) : l ≠ [] := by
  cases cs with
  | nil => simp [lastSeam?] at h
  | cons c cs =>
      simp only [lastSeam?] at h
      split at h
      · intro hl
        obtain ⟨rfl, rfl⟩ := by simpa using h
        simp at hl
      · split at h
        · rename_i hc
          exfalso
          revert hc
          simp only [Seam.splitsAt, Seam.continues, hs]
          cases operandOf? c <;> simp
        · simp at h

end Reckoner.Notation
