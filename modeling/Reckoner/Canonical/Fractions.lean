/-
**Fractions and roots.**

The fractions and roots of LaTeX, with their arguments in braces, are written in plain notation.
The work goes from the right end of a text to the left, so that the arguments of a macro are
already in plain notation when the macro is reached.  A macro without its arguments stays.

Main definitions:

* `Reckoner.Canonical.braceGroup?` — a group in braces at the front of a text;
* `Reckoner.Canonical.plainFraction?`, `Reckoner.Canonical.plainRoot?` — one macro;
* `Reckoner.Canonical.plainMacros` — all of them.
-/

import Reckoner.Text.Scan

set_option autoImplicit false

namespace Reckoner.Canonical

open Text (after? cut?)

/-! ### Groups -/

/-- A text cut at the brace that closes the last of `depth` open ones. -/
def closingBrace? : Nat → List Char → Option (List Char × List Char)
  | _, [] => none
  | depth, c :: cs =>
      if c = '\x7d' ∧ depth = 1 then some ([], cs)
      else
        let depth := if c = '\x7b' then depth + 1 else if c = '\x7d' then depth - 1 else depth
        (closingBrace? depth cs).map fun p => (c :: p.1, p.2)

/-- The content of a group in braces at the front of a text, and what follows the group. -/
def braceGroup? : List Char → Option (List Char × List Char)
  | [] => none
  | c :: cs => if c = '\x7b' then closingBrace? 1 cs else none

/-! ### Macros -/

/-- The text `cs` in round brackets. -/
def parenthesized (cs : List Char) : List Char := '(' :: (cs ++ [')'])

/-- The quotient for a fraction whose arguments are at the front of a text, with the rest of the
text. -/
def plainFraction? (cs : List Char) : Option (List Char) := do
  let (num, cs) ← braceGroup? cs
  let (den, cs) ← braceGroup? cs
  return parenthesized num ++ '/' :: parenthesized den ++ cs

/-- The square root of a group at the front of a text, or the power for the root of a degree in
square brackets, with the rest of the text. -/
def plainRoot? (cs : List Char) : Option (List Char) :=
  match cs with
  | '[' :: cs => do
      let (degree, cs) ← cut? ']' cs
      let (radicand, cs) ← braceGroup? cs
      return parenthesized radicand ++ '^' :: parenthesized ("1/".toList ++ parenthesized degree)
        ++ cs
  | cs => do
      let (radicand, cs) ← braceGroup? cs
      return "sqrt".toList ++ parenthesized radicand ++ cs

/-- A fraction or a root at the front of a text in plain notation, if its arguments are there. -/
def plainMacro? (cs : List Char) : Option (List Char) :=
  match after? "\\frac".toList cs with
  | some rest => plainFraction? rest
  | none =>
      match after? "\\sqrt".toList cs with
      | some rest => plainRoot? rest
      | none => none

/-- A text with its fractions and roots in plain notation. -/
def plainMacros : List Char → List Char
  | [] => []
  | c :: cs =>
      let text := c :: plainMacros cs
      (plainMacro? text).getD text

end Reckoner.Canonical
