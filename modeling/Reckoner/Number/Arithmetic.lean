/-
**The arithmetic of the calculator.**

Expressions, equations and limits are computed over any type of numbers with the operations
below, so that one set of definitions serves the binary numbers of the running program and the
exact numbers of its theory.  Nothing is assumed of the operations here: rounding, infinities and
undefined results are the business of an instance.

Main definitions:

* `Reckoner.Elementary` — the elementary functions of one argument;
* `Reckoner.Arithmetic` — numbers with the field operations, powers, elementary functions, named
  constants and comparison;
* `Reckoner.Number` — such numbers that can also be written down;
* `Reckoner.Arithmetic.ofLiteral` — the number that a written form denotes.
-/

import Reckoner.Number.Reading
import Reckoner.Number.Literal

set_option autoImplicit false

namespace Reckoner

/-- The elementary functions of one argument. -/
inductive Elementary
  | exp | ln | log10 | sqrt | abs
  | sin | cos | tan | cot
  | arcsin | arccos | arctan | arccot
deriving DecidableEq, Repr

/-- Numbers to calculate with. -/
class Arithmetic (κ : Type) extends Add κ, Sub κ, Mul κ, Div κ, Neg κ where
  /-- An integer as a number. -/
  ofInt : Int → κ
  /-- The number `ofDecimal n p` is the one nearest to `n * 10 ^ p`. -/
  ofDecimal : Nat → Int → κ
  /-- The result of an operation that has none. -/
  undefined : κ
  /-- Positive infinity. -/
  infinity : κ
  /-- The ratio of a circle's circumference to its diameter. -/
  pi : κ
  /-- The base of the natural logarithm. -/
  euler : κ
  /-- The natural logarithm of ten. -/
  ln10 : κ
  /-- The power `pow b x` is `b` to the `x`. -/
  pow : κ → κ → κ
  /-- The value of an elementary function. -/
  apply : Elementary → κ → κ
  /-- Numerical equality. -/
  same : κ → κ → Bool
  /-- Strict order. -/
  less : κ → κ → Bool
  /-- Neither undefined nor infinite. -/
  isFinite : κ → Bool
  /-- The integer nearest to a finite number, halves away from zero. -/
  nearest : κ → Int

/-- Numbers that can be written down. -/
class Number (κ : Type) extends Arithmetic κ where
  /-- The exact value of a number. -/
  reading : κ → Reading
  /-- The shortest decimal text of a number, without an exponent. -/
  text : κ → String

namespace Arithmetic

variable {κ : Type} [Arithmetic κ]

/-- The number zero. -/
def zero : κ := ofInt 0

/-- The number one. -/
def one : κ := ofInt 1

/-- The number minus one. -/
def minusOne : κ := ofInt (-1)

/-- Equal to zero, of either sign. -/
def isZero (c : κ) : Bool := same c zero

/-- Equal to one. -/
def isOne (c : κ) : Bool := same c one

/-- Less than zero. -/
def isNegative (c : κ) : Bool := less c zero

/-- The integer that a number is equal to, if there is one. -/
def integer? (c : κ) : Option Int :=
  if isFinite c && same (ofInt (nearest c)) c then some (nearest c) else none

/-- One part in ten thousand million, the distance under which numbers are not told apart. -/
def tolerance : κ := ofDecimal 1 (-10)

/-- The integer that a number lies within the tolerance of, if there is one. -/
def nearInteger? (c : κ) : Option Int :=
  if isFinite c && less (apply .abs (c - ofInt (nearest c))) tolerance then some (nearest c)
  else none

/-- The number that a written form denotes. -/
def ofLiteral : Literal → κ
  | .undefined => undefined
  | .infinite negative => if negative then -infinity else infinity
  | .decimal negative digits power =>
      if negative then -(ofDecimal digits power) else ofDecimal digits power

/-- The finite number written in a text. -/
def readFinite? (cs : List Char) : Option κ :=
  ((Literal.read cs).map ofLiteral).filter (isFinite ·)

end Arithmetic

end Reckoner
