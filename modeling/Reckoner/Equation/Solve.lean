/-
**Solving equations.**

The coefficients of an equation are read off the Taylor expansion of its zero form at zero: the
value, the first and the second derivative.  A third derivative other than zero shows a degree
that is too high, and a derivative that is not finite shows that the equation is no polynomial
equation.

Main definitions:

* `Reckoner.zeroForm` — an equation as the difference of its sides;
* `Reckoner.TaylorCoefficients` — the coefficients;
* `Reckoner.Expr.taylorCoefficients` — the coefficients of an expression at zero;
* `Reckoner.solve` — the coefficients and the roots of an equation.
-/

import Reckoner.Equation.Roots
import Reckoner.Expr.Derivative
import Reckoner.Expr.Simplify
import Reckoner.Request.Basic

set_option autoImplicit false

namespace Reckoner

/-- The left side of an equation minus its right side; a text without an equals sign stays. -/
def zeroFormChars (cs : List Char) : List Char :=
  match Text.cut? '=' cs with
  | some (l, r) => Text.trim l ++ " - (".toList ++ Text.trim r ++ [')']
  | none => cs

/-- The left side of an equation minus its right side; a text without an equals sign stays. -/
def zeroForm (text : String) : String := String.ofList (zeroFormChars text.toList)

variable {κ : Type} [Number κ]

open Arithmetic (isFinite less tolerance zero)

/-- The value and the first two derivatives of an expression at zero. -/
structure TaylorCoefficients (κ : Type) where
  /-- The second derivative. -/
  second : κ
  /-- The first derivative. -/
  first : κ
  /-- The value. -/
  value : κ

/-- The simplified derivative. -/
def Expr.simplifiedDerivative (x : String) (e : Expr κ) : Expr κ := (e.derivative x).simplify

/-- Whether a third derivative is taken for zero.  One that is not finite, or that is above the
tolerance, is a failure; one without a value is passed over. -/
def checkThird (third : Except Failure κ) : Except Failure Unit :=
  match third with
  | .ok d =>
      if !isFinite d then .error .transcendental
      else if less tolerance (Roots.magnitude d) then .error .degreeTooHigh
      else .ok ()
  | .error _ => .ok ()

/-- The Taylor coefficients at `x = 0` of an expression that is a polynomial of degree two at most
in `x`.  A second derivative without a value counts as zero. -/
def Expr.taylorCoefficients (x : String) (e : Expr κ) : Except Failure (TaylorCoefficients κ) := do
  let atZero : Scope κ := Scope.single x zero
  let c ← e.value atZero
  if !isFinite c then throw .undefinedAtZero
  let first := e.simplifiedDerivative x
  let b ← first.value atZero
  if !isFinite b then throw .transcendental
  let second := first.simplifiedDerivative x
  let a ← match second.value atZero with
    | .ok a => if isFinite a then pure a else throw .transcendental
    | .error _ => pure zero
  checkThird ((second.simplifiedDerivative x).value atZero)
  return ⟨a, b, c⟩

/-- The Taylor coefficients of an equation or an expression. -/
def equationCoefficients (text x : String) : Except Failure (TaylorCoefficients κ) := do
  let e ← parseExpr (κ := κ) (zeroForm text)
  e.simplify.taylorCoefficients x

/-- Solves an equation, or an expression set equal to zero.  The coefficients are a step. -/
def solve (text x : String) : Outcome κ :=
  match equationCoefficients text x with
  | .ok t =>
      { steps := [.coefficients t.second t.first t.value]
        result := .ok (Roots.classify t.second t.first t.value).text }
  | .error failure => { steps := [], result := .error failure }

end Reckoner
