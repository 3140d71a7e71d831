/-
**How results are written.**

A result that is a bare number is written as `0` when it is tiny, as an integer when it lies
within the tolerance of one, and with six decimal places otherwise.  A limit always has six
places, and a number inside a symbolic result has at most six.

Main definitions:

* `Reckoner.Reading.format` — a bare result;
* `Reckoner.Reading.fixed6` — a limit;
* `Reckoner.Reading.latex` — a number in a LaTeX result.
-/

import Reckoner.Number.Decimal
import Reckoner.Number.Reading

set_option autoImplicit false

namespace Reckoner.Reading

/-- The distance under which a value is written as the integer beside it. -/
def snap : Rat := mkRat 1 (Nat.pow 10 10)

/-- A bare result: `0`, an integer, or six places. -/
def format : Reading → String
  | .undefined => "NaN"
  | .infinite negative => if negative then "-Infinity" else "Infinity"
  | .finite q =>
      if q.abs < snap then "0"
      else if (q - nearestInteger q).abs < snap then Decimal.fixed 0 (nearestInteger q)
      else Decimal.fixed 6 q

/-- Six places.  A zero has no sign. -/
def fixed6 : Reading → String
  | .undefined => "NaN"
  | .infinite negative => if negative then "-inf" else "inf"
  | .finite q =>
      let text := Decimal.fixed 6 q
      if text == "-0.000000" then "0.000000" else text

/-- At most six places, without zeros at the end, in LaTeX. -/
def latex : Reading → String
  | .undefined => "\\mathrm\x7bNaN\x7d"
  | .infinite negative => if negative then "-\\infty" else "\\infty"
  | .finite q =>
      if (q - nearestInteger q).abs < snap then Decimal.fixed 0 (nearestInteger q)
      else
        let trimmed := String.ofList
          (Decimal.dropTrailing '.' (Decimal.dropTrailing '0' (Decimal.fixed 6 q).toList))
        if trimmed == "-0" then "0" else trimmed

end Reckoner.Reading
