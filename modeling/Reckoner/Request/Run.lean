/-
**Answering requests.**

A request is run on the expressions of its arguments, and a line of input is answered by running
the request of its canonical text.

Main definitions:

* `Reckoner.Expr.shown` — an expression as a result;
* `Reckoner.Request.run` — the outcome of a request;
* `Reckoner.Answer`, `Reckoner.answer` — the outcome of a line of input, with its text.
-/

import Reckoner.Canonical.Normalize
import Reckoner.Equation.Solve
import Reckoner.Expr.Fraction
import Reckoner.Expr.Latex
import Reckoner.Request.Classify
import Reckoner.Request.Limit

set_option autoImplicit false

namespace Reckoner

variable {κ : Type} [Number κ]

/-- An expression as a result: its LaTeX, or a bare number in the format of numbers. -/
def Expr.shown (e : Expr κ) : String :=
  match Arithmetic.readFinite? (κ := κ) e.latex.toList with
  | some value => (Number.reading value).format
  | none => e.latex

/-- The outcome of an operation on the expression of a text. -/
def runOn (text : String) (op : Expr κ → Except Failure String) : Outcome κ :=
  { steps := [], result := parseExpr text >>= op }

/-- The outcome of a request. -/
def Request.run : Request → Outcome κ
  | .evaluate e => runOn e fun e => do return (Number.reading (← e.value Scope.empty)).format
  | .derivative e x => runOn e fun e => .ok (e.simplifiedDerivative x).shown
  | .simplify e => runOn e fun e => .ok e.simplify.shown
  | .expand e => runOn e fun e => .ok e.expand.shown
  | .factor e => runOn e fun e => .ok e.rationalize.shown
  | .solve e x => Reckoner.solve e x
  | .limit e x target => Reckoner.limit e x target

/-- The outcome of a line of input. -/
structure Answer (κ : Type) where
  /-- The request found in the input. -/
  request : Request
  /-- All steps, in order. -/
  steps : List (Step κ)
  /-- The text of the result. -/
  result : Except Failure String

/-- The answer as one text. -/
def Answer.text (a : Answer κ) : String :=
  match a.result with
  | .ok text => text
  | .error failure => "Error: " ++ failure.message

/-- Answers a line of input.  A derivative that names no variable is taken by `default`. -/
def answer (default raw : String) : Answer κ :=
  let canonical := normalize raw
  let request := Request.classify default canonical
  let outcome : Outcome κ := request.run
  { request := request
    steps := .normalized canonical :: .requested request :: outcome.steps
    result := outcome.result }

end Reckoner
