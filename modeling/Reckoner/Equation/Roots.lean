/-
**Roots of equations of degree two at most.**

The equation is given by its coefficients as Taylor coefficients at zero: twice the coefficient of
the square, the coefficient of the unknown and the constant.  A coefficient within the tolerance
counts as zero, and two roots within the tolerance as one.

Main definitions:

* `Reckoner.Roots` — the roots of an equation;
* `Reckoner.Roots.classify` — the roots for given coefficients;
* `Reckoner.Roots.text` — how they are written.
-/

import Reckoner.Number.Arithmetic
import Reckoner.Number.Format

set_option autoImplicit false

namespace Reckoner

/-- The roots of an equation. -/
inductive Roots (κ : Type)
  /-- A square that no real number has. -/
  | noReal
  /-- One root. -/
  | one (root : κ)
  /-- Two roots, the one with the positive square root first. -/
  | two (root root' : κ)
  /-- A linear equation whose root is not finite. -/
  | notFinite
  /-- Every number is a root. -/
  | all
  /-- No number is a root. -/
  | none
deriving DecidableEq

namespace Roots

variable {κ : Type}

open Arithmetic (ofInt less isNegative tolerance)

/-- The absolute value of a number. -/
def magnitude [Arithmetic κ] (c : κ) : κ := Arithmetic.apply .abs c

/-- The roots of `second / 2 * x ^ 2 + first * x + constant = 0`. -/
def classify [Arithmetic κ] (second first constant : κ) : Roots κ :=
  if less tolerance (magnitude second) then
    let a := second / ofInt 2
    let discriminant := first * first - ofInt 4 * a * constant
    if isNegative discriminant then .noReal
    else
      let root := Arithmetic.apply .sqrt discriminant
      let upper := (-first + root) / (ofInt 2 * a)
      let lower := (-first - root) / (ofInt 2 * a)
      if less (magnitude (upper - lower)) tolerance then .one upper else .two upper lower
  else if less tolerance (magnitude first) then
    let root := -constant / first
    if Arithmetic.isFinite root then .one root else .notFinite
  else if less (magnitude constant) tolerance then .all
  else .none

/-- How the roots are written. -/
def text [Number κ] : Roots κ → String
  | .noReal => "No real solutions"
  | .one root => (Number.reading root).format
  | .two root root' => (Number.reading root).format ++ ", " ++ (Number.reading root').format
  | .notFinite => "No solution (division by zero)"
  | .all => "All real numbers"
  | .none => "No solution"

end Roots

end Reckoner
