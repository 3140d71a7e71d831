/-
**Requests.**

What a line of canonical text asks for, with its arguments, and the ways in which a request can
fail.

Main definitions:

* `Reckoner.Request` — the requests;
* `Reckoner.Failure` — the failures, with their wording;
* `Reckoner.Step` — the intermediate results that can be watched;
* `Reckoner.Outcome` — the steps of a request and its result.
-/

import Reckoner.Expr.Evaluate
import Reckoner.Notation.Parser

set_option autoImplicit false

namespace Reckoner

/-- What is asked for. -/
inductive Request
  /-- The value of an expression. -/
  | evaluate (expression : String)
  /-- The derivative by a variable. -/
  | derivative (expression symbol : String)
  /-- The simplified expression. -/
  | simplify (expression : String)
  /-- The expanded expression. -/
  | expand (expression : String)
  /-- The expression as a single fraction. -/
  | factor (expression : String)
  /-- The roots of an equation. -/
  | solve (expression symbol : String)
  /-- The limit as a variable approaches a target. -/
  | limit (expression symbol target : String)
deriving DecidableEq, Repr

namespace Request

/-- The word for a request. -/
def keyword : Request → String
  | .evaluate _ => "evaluate"
  | .derivative _ _ => "derivative"
  | .simplify _ => "simplify"
  | .expand _ => "expand"
  | .factor _ => "factor"
  | .solve _ _ => "solve"
  | .limit _ _ _ => "limit"

/-- The text of the expression that a request is about. -/
def expression : Request → String
  | .evaluate e | .derivative e _ | .simplify e | .expand e | .factor e | .solve e _
  | .limit e _ _ => e

end Request

/-! ### Failures -/

/-- Why a request has no answer. -/
inductive Failure
  /-- The text is no expression. -/
  | parse (reason : ParseError)
  /-- A symbol has no value. -/
  | evaluation (reason : EvalError)
  /-- The two sides of an equation have no finite values at zero. -/
  | undefinedAtZero
  /-- An equation that is no polynomial equation. -/
  | transcendental
  /-- A polynomial equation of degree three or more. -/
  | degreeTooHigh
  /-- A text that is no target of a limit. -/
  | noTarget (text : String)
  /-- A limit that substitution does not give. -/
  | indeterminate
deriving DecidableEq, Repr

/-- The wording of a failure. -/
def Failure.message : Failure → String
  | .parse reason => reason.message
  | .evaluation reason => reason.message
  | .undefinedAtZero => "division by zero or undefined values"
  | .transcendental =>
      "transcendental equation: terms like sqrt, log or trigonometric functions " ++
      "cannot be solved by coefficient extraction"
  | .degreeTooHigh => "equations of degree higher than 2 are not supported"
  | .noTarget text => "Unsupported limit target " ++ text
  | .indeterminate =>
      "Indeterminate form: this limit requires L'Hôpital's rule, which is not supported"

/-- Reads an expression; a fault in the text is a failure of the request. -/
def parseExpr {κ : Type} [Number κ] (text : String) : Except Failure (Expr κ) :=
  (Expr.parse text).mapError .parse

/-- Evaluates an expression; a symbol without a value is a failure of the request. -/
def Expr.value {κ : Type} [Arithmetic κ] (e : Expr κ) (scope : Scope κ) : Except Failure κ :=
  (e.eval scope).mapError .evaluation

/-! ### Steps -/

/-- An intermediate result that can be watched. -/
inductive Step (κ : Type)
  /-- The canonical text of the input. -/
  | normalized (text : String)
  /-- The request found in it. -/
  | requested (request : Request)
  /-- The second derivative, the first derivative and the value at zero. -/
  | coefficients (second first value : κ)
  /-- A limit that is tried again after simplification, since substitution of the point gave
  the value. -/
  | retried (symbol : String) (point value : κ)

namespace Step

variable {κ : Type} [Number κ]

/-- The name of the stage that a step belongs to. -/
def stage : Step κ → String
  | .normalized _ => "normalized"
  | .requested request => request.keyword
  | .coefficients _ _ _ => "solve.coefficients"
  | .retried _ _ _ => "limit.retry"

/-- What a step has found. -/
def detail : Step κ → String
  | .normalized text => text
  | .requested request => request.expression
  | .coefficients second first value =>
      "f''(0) = " ++ Number.text second ++ ", f'(0) = " ++ Number.text first ++
      ", f(0) = " ++ Number.text value
  | .retried x point value => x ++ " at " ++ Number.text point ++ " = " ++ Number.text value

end Step

/-- The steps of a request and its result. -/
structure Outcome (κ : Type) where
  /-- The steps, in order. -/
  steps : List (Step κ)
  /-- The text of the result. -/
  result : Except Failure String

end Reckoner
