/-
**Products without a sign.**

A sign of multiplication is put between a digit and a letter, between two pairs of brackets, and
between a bracket and a name that is no function call.  Letters are those of ASCII here, and
digits those of any script.

Main definitions:

* `Reckoner.Canonical.insertTimes` — the sign between a character and what follows it;
* `Reckoner.Canonical.insertProducts` — the sign in all three places.
-/

import Reckoner.Text.Letter

set_option autoImplicit false

namespace Reckoner.Canonical

open Text (isLatinLetter isDecimalDigit)

/-- A sign of multiplication after every character that wants one in front of what follows. -/
def insertTimes (wants : Char → List Char → Bool) : List Char → List Char
  | [] => []
  | c :: cs =>
      if wants c cs then c :: '*' :: insertTimes wants cs else c :: insertTimes wants cs

/-- A digit in front of a letter. -/
def digitThenLetter (c : Char) (cs : List Char) : Bool :=
  isDecimalDigit c && cs.head?.any isLatinLetter

/-- A closing bracket in front of an opening one. -/
def closeThenOpen (c : Char) (cs : List Char) : Bool := c == ')' && cs.head? == some '('

/-- A closing bracket in front of a run of letters that no bracket follows. -/
def closeThenName (c : Char) (cs : List Char) : Bool :=
  c == ')' && cs.head?.any isLatinLetter && (cs.dropWhile isLatinLetter).head? != some '('

/-- A text with the signs of its implied products. -/
def insertProducts (cs : List Char) : List Char :=
  insertTimes closeThenName (insertTimes closeThenOpen (insertTimes digitThenLetter cs))

end Reckoner.Canonical
