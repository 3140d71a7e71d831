/-
**Expressions.**

An expression is built from variables and numbers by the five operations and the elementary
functions.  The named constants are variables: they stand for their values only when an
expression is evaluated.

Main definitions:

* `Reckoner.Expr` — expressions over a type of numbers;
* `Reckoner.Expr.same` — equality of trees, in which numbers are compared as numbers: an
  undefined number differs from itself, and the two zeros are equal;
* `Reckoner.Expr.mentions` — occurrence of a variable;
* `Reckoner.Expr.argument?`, `Reckoner.Expr.withArgument` — the argument of an elementary
  function, and its replacement.
-/

import Reckoner.Number.Arithmetic

set_option autoImplicit false

namespace Reckoner

/-- Expressions over numbers of type `κ`. -/
inductive Expr (κ : Type)
  /-- A variable or a named constant. -/
  | var (name : String)
  /-- A number. -/
  | const (value : κ)
  /-- A sum. -/
  | add (a b : Expr κ)
  /-- A difference. -/
  | sub (a b : Expr κ)
  /-- A product. -/
  | mul (a b : Expr κ)
  /-- A quotient. -/
  | div (a b : Expr κ)
  /-- A power. -/
  | pow (base exponent : Expr κ)
  /-- An elementary function of an argument. -/
  | apply (f : Elementary) (a : Expr κ)
deriving Inhabited

namespace Expr

variable {κ : Type}

/-! ### Shape -/

/-- A sum or a difference. -/
def isSum : Expr κ → Bool
  | .add _ _ | .sub _ _ => true
  | _ => false

/-- A number. -/
def isConst : Expr κ → Bool
  | .const _ => true
  | _ => false

/-- Whether the variable `x` occurs. -/
def mentions (x : String) : Expr κ → Bool
  | .var y => y == x
  | .const _ => false
  | .add a b | .sub a b | .mul a b | .div a b | .pow a b => a.mentions x || b.mentions x
  | .apply _ a => a.mentions x

/-- The function and the argument of an elementary function. -/
def argument? : Expr κ → Option (Elementary × Expr κ)
  | .apply f a => some (f, a)
  | _ => none

/-- The same elementary function of another argument; other expressions stay as they are. -/
def withArgument (e a : Expr κ) : Expr κ :=
  match e with
  | .apply f _ => .apply f a
  | e => e

/-- The number of nodes. -/
def size : Expr κ → Nat
  | .var _ | .const _ => 1
  | .add a b | .sub a b | .mul a b | .div a b | .pow a b => a.size + b.size + 1
  | .apply _ a => a.size + 1

/-! ### Numbers in expressions -/

variable [Arithmetic κ]

open Arithmetic (isZero isOne)

/-- Equality of trees, with numbers compared as numbers. -/
def same : Expr κ → Expr κ → Bool
  | .var x, .var y => x == y
  | .const c, .const d => Arithmetic.same c d
  | .add a b, .add c d | .sub a b, .sub c d | .mul a b, .mul c d | .div a b, .div c d
  | .pow a b, .pow c d => a.same c && b.same d
  | .apply f a, .apply g b => f == g && a.same b
  | _, _ => false

/-- The number zero. -/
def isZeroConst : Expr κ → Bool
  | .const c => isZero c
  | _ => false

/-- The number one. -/
def isOneConst : Expr κ → Bool
  | .const c => isOne c
  | _ => false

/-- An integer as an expression. -/
def ofInt (n : Int) : Expr κ := .const (Arithmetic.ofInt n)

/-- The product with minus one. -/
def negated (e : Expr κ) : Expr κ := .mul (ofInt (-1)) e

end Expr

end Reckoner
