/-
**Limits.**

A limit is taken by substitution of the target.  When the value is not finite the expression is
simplified and the target substituted once more, and when that is not finite either the form is
indeterminate.

Main definitions:

* `Reckoner.parseTarget` — the point that a target denotes;
* `Reckoner.limit` — the limit of an expression.
-/

import Reckoner.Expr.Simplify
import Reckoner.Number.Format
import Reckoner.Request.Basic

set_option autoImplicit false

namespace Reckoner

variable {κ : Type} [Number κ]

open Arithmetic (isFinite)

/-- The point that a target denotes: an infinity in words or a finite number, in any case. -/
def parseTarget (text : String) : Except Failure κ :=
  let cs := Text.trim text.toList
  let lower := cs.map Char.toLower
  match String.ofList lower with
  | "inf" | "infinity" | "+inf" | "+infinity" => .ok Arithmetic.infinity
  | "-inf" | "-infinity" => .ok (-Arithmetic.infinity)
  | _ =>
      match Arithmetic.readFinite? lower with
      | some point => .ok point
      | none => .error (.noTarget (String.ofList cs))

/-- The value of a simplified expression, which has to be finite. -/
def retriedLimit (e : Expr κ) (scope : Scope κ) : Except Failure String := do
  let value ← e.simplify.value scope
  if isFinite value then return (Number.reading value).fixed6 else throw .indeterminate

/-- The limit of an expression as `x` approaches a target. -/
def limit (text x target : String) : Outcome κ :=
  let substituted : Except Failure (κ × Expr κ × κ) := do
    let point ← parseTarget target
    let e ← parseExpr text
    return (point, e, ← e.value (Scope.single x point))
  match substituted with
  | .error failure => { steps := [], result := .error failure }
  | .ok (point, e, value) =>
      if isFinite value then { steps := [], result := .ok (Number.reading value).fixed6 }
      else
        { steps := [.retried x point value]
          result := retriedLimit e (Scope.single x point) }

end Reckoner
