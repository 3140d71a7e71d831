/-
**Judging answers.**

Two answers are equivalent when both denote numbers and these differ by less than a thousandth,
or else when they are the same text up to case, white space and brackets.

A number is a decimal number, a quotient of two, or a formula, in which every letter `e` stands
for Euler's number.

Main definitions:

* `Reckoner.Judge.numericValue?` — the number that an answer denotes;
* `Reckoner.Judge.plainText` — an answer as a text to compare;
* `Reckoner.Judge.Verdict`, `Reckoner.Judge.judge` — the comparison;
* `Reckoner.Judge.equivalent` — its result.
-/

import Reckoner.Judge.Formula
import Reckoner.Text.Blank
import Reckoner.Text.Lowercase
import Reckoner.Text.Scan

set_option autoImplicit false

namespace Reckoner.Judge

/-- The difference from which on two numbers are told apart. -/
def answerTolerance : Float := 0.001

/-- A number as it is put in place of the letter `e`. -/
def eulerText : String := "(2.718281828459045)"

/-- A finite decimal number with blanks around it. -/
def plainNumber? (cs : List Char) : Option Float := Arithmetic.readFinite? (Text.trim cs)

/-- The two sides of a slash, if both are plain numbers. -/
def quotient? (cs : List Char) : Option (Float × Float) := do
  let (l, r) ← Text.cut? '/' cs
  return (← plainNumber? l, ← plainNumber? r)

/-- A formula with names for the signs of the circle number and the root, and with Euler's number
for every `e`. -/
def substituted (cs : List Char) : List Char :=
  cs.flatMap fun c =>
    if c = 'π' then "pi".toList
    else if c = '√' then "sqrt".toList
    else if c = 'e' then eulerText.toList
    else [c]

/-- A number that is not finite is none. -/
def finite? (x : Float) : Option Float := if Arithmetic.isFinite x then some x else none

/-- The number that an answer denotes. -/
def numericValue? (cs : List Char) : Option Float :=
  match plainNumber? cs with
  | some x => some x
  | none =>
      match quotient? cs with
      | some (n, d) => finite? (n / d)
      | none => evaluate? (substituted cs) >>= finite?

/-- An answer as a text to compare: in lower case, without white space, round and angle
brackets. -/
def plainText (cs : List Char) : List Char :=
  (cs.filter fun c => !(Text.isBlank c || ['(', ')', '<', '>'].contains c)).flatMap Text.lowercase

/-- The outcome of a comparison. -/
inductive Verdict
  /-- Both answers are numbers. -/
  | numeric (user correct : Float)
  /-- The answers are compared as texts. -/
  | textual (agree : Bool)

/-- Compares the answer of a user with the correct one. -/
def judge (user correct : String) : Verdict :=
  let user := Text.trim user.toList
  let correct := Text.trim correct.toList
  match numericValue? user, numericValue? correct with
  | some u, some c => .numeric u c
  | _, _ => .textual (plainText user == plainText correct)

/-- Whether a comparison finds the answers equivalent. -/
def Verdict.holds : Verdict → Bool
  | .numeric u c => (u - c).abs < answerTolerance
  | .textual agree => agree

/-- Whether two answers are equivalent. -/
def equivalent (user correct : String) : Bool := (judge user correct).holds

end Reckoner.Judge
