/-
**The value of an expression.**

Variables get their values from a scope, and the named constants keep theirs unless the scope
says otherwise.  The only failure is a symbol without a value; a result that is infinite or
undefined is a value like any other.

Main definitions:

* `Reckoner.namedConstant?` — the values of the named constants;
* `Reckoner.Scope` — values for variables;
* `Reckoner.EvalError` — the failure;
* `Reckoner.Expr.eval` — evaluation.
-/

import Reckoner.Expr.Basic

set_option autoImplicit false

namespace Reckoner

variable {κ : Type}

/-- The value of a named constant. -/
def namedConstant? [Arithmetic κ] (name : String) : Option κ :=
  match name with
  | "pi" | "π" => some Arithmetic.pi
  | "e" => some Arithmetic.euler
  | "hbar" => some (Arithmetic.ofDecimal 1054571817 (-43))
  | "Infinity" => some Arithmetic.infinity
  | _ => none

/-- Values for variables. -/
abbrev Scope (κ : Type) := String → Option κ

/-- The scope without variables. -/
def Scope.empty : Scope κ := fun _ => none

/-- The scope of one variable. -/
def Scope.single (x : String) (value : κ) : Scope κ := fun y => if y = x then some value else none

/-- A symbol that has no value. -/
structure EvalError where
  /-- The symbol. -/
  symbol : String
deriving DecidableEq, Repr

/-- The wording of the failure. -/
def EvalError.message (e : EvalError) : String := "Undefined symbol " ++ e.symbol

/-- The value of a symbol in a scope. -/
def Scope.lookup [Arithmetic κ] (scope : Scope κ) (name : String) : Except EvalError κ :=
  match scope name with
  | some value => .ok value
  | none =>
      match namedConstant? name with
      | some value => .ok value
      | none => .error ⟨name⟩

namespace Expr

variable [Arithmetic κ]

/-- The value of an expression.  Of two symbols without a value the left one is reported. -/
def eval (scope : Scope κ) : Expr κ → Except EvalError κ
  | .var x => scope.lookup x
  | .const c => .ok c
  | .add a b => do return (← a.eval scope) + (← b.eval scope)
  | .sub a b => do return (← a.eval scope) - (← b.eval scope)
  | .mul a b => do return (← a.eval scope) * (← b.eval scope)
  | .div a b => do return (← a.eval scope) / (← b.eval scope)
  | .pow a b => do return Arithmetic.pow (← a.eval scope) (← b.eval scope)
  | .apply f a => do return Arithmetic.apply f (← a.eval scope)

end Expr

end Reckoner
