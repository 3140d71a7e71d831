/-
**Functions of the answer formulas.**

Answers may be written with more functions than expressions have.  Those that the binary numbers
do not bring along are given by their formulas.

Main definitions:

* `Reckoner.Judge.remainder` — the remainder of a division toward zero;
* `Reckoner.Judge.log1p`, `Reckoner.Judge.asinh`, `Reckoner.Judge.acosh`, `Reckoner.Judge.atanh`
  — logarithms near one and the inverse hyperbolic functions;
* `Reckoner.Judge.constant?`, `Reckoner.Judge.function?` — what a name stands for.
-/

import Reckoner.Number.Binary64

set_option autoImplicit false

namespace Reckoner.Judge

open Binary64 (hasMinus)

/-- A magnitude with the sign of a number. -/
def withSignOf (x magnitude : Float) : Float := if hasMinus x then -magnitude else magnitude

/-- An exact dyadic value as a binary number. -/
def ofDyadic (q : Rat) : Float :=
  let k := q.den.log2
  Binary64.ofDecimal (q.num.natAbs * Nat.pow 5 k) (-(k : Int))

/-- The remainder of a division toward zero.  It has the sign of the dividend. -/
def remainder (x y : Float) : Float :=
  match Binary64.reading x, Binary64.reading y with
  | .finite p, .finite q =>
      if q = 0 then 0.0 / 0.0
      else
        let whole := (p.abs / q.abs).floor
        withSignOf x (ofDyadic (p.abs - whole * q.abs))
  | .finite _, .infinite _ => x
  | _, _ => 0.0 / 0.0

/-- The sign of a number as a number; a zero has one too. -/
def signum (x : Float) : Float := if x.isNaN then x else withSignOf x 1.0

/-- The logarithm of `1 + x`, accurate for small `x`. -/
def log1p (x : Float) : Float :=
  let u := 1.0 + x
  if u == 1.0 then x
  else if u.isInf then u
  else u.log * x / (u - 1.0)

/-- The inverse hyperbolic sine. -/
def asinh (x : Float) : Float :=
  let magnitude := x.abs
  let inverse := 1.0 / magnitude
  let root := (1.0 + inverse * inverse).sqrt
  withSignOf x (log1p (magnitude + magnitude / (root + inverse)))

/-- The inverse hyperbolic cosine. -/
def acosh (x : Float) : Float :=
  if x < 1.0 then 0.0 / 0.0 else (x + (x - 1.0).sqrt * (x + 1.0).sqrt).log

/-- The inverse hyperbolic tangent. -/
def atanh (x : Float) : Float := 0.5 * log1p (2.0 * x / (1.0 - x))

/-- The larger of two numbers, or the one that is defined. -/
def larger (x y : Float) : Float := if x.isNaN || x < y then y else x

/-- The smaller of two numbers, or the one that is defined. -/
def smaller (x y : Float) : Float := if x.isNaN || y < x then y else x

/-! ### Names -/

/-- The constant of a name. -/
def constant? : String → Option Float
  | "pi" => some Arithmetic.pi
  | "e" => some Arithmetic.euler
  | _ => none

/-- The function of one argument of a name. -/
def unary? : String → Option (Float → Float)
  | "sqrt" => some Float.sqrt
  | "exp" => some Float.exp
  | "ln" => some Float.log
  | "abs" => some Float.abs
  | "sin" => some Float.sin
  | "cos" => some Float.cos
  | "tan" => some Float.tan
  | "asin" => some Float.asin
  | "acos" => some Float.acos
  | "atan" => some Float.atan
  | "sinh" => some Float.sinh
  | "cosh" => some Float.cosh
  | "tanh" => some Float.tanh
  | "asinh" => some asinh
  | "acosh" => some acosh
  | "atanh" => some atanh
  | "floor" => some Float.floor
  | "ceil" => some Float.ceil
  | "round" => some Float.round
  | "signum" => some signum
  | _ => none

/-- The value of a function of a name at its arguments.  The largest of numbers that are all
undefined is negative infinity, and the smallest is infinity. -/
def function? (name : String) (arguments : List Float) : Option Float :=
  match name, arguments with
  | "atan2", [y, x] => some (Float.atan2 y x)
  | "max", x :: xs => some ((x :: xs).foldl larger (-Arithmetic.infinity))
  | "min", x :: xs => some ((x :: xs).foldl smaller Arithmetic.infinity)
  | name, [x] => (unary? name).map (· x)
  | _, _ => none

end Reckoner.Judge
