/-
**Single fractions.**

An expression is written as one fraction, whose numerator and denominator are then expanded.
Sums over one denominator are added as they are, and over different ones across; a negative
power of a fraction is the power of its reciprocal.

Main definitions:

* `Reckoner.Expr.Fraction` — a numerator and a denominator;
* `Reckoner.Expr.toFraction` — an expression as a fraction;
* `Reckoner.Expr.rationalize` — the fraction as an expression, without a denominator of one.
-/

import Reckoner.Expr.Expand

set_option autoImplicit false

namespace Reckoner.Expr

/-- A numerator and a denominator. -/
structure Fraction (κ : Type) where
  /-- The numerator. -/
  num : Expr κ
  /-- The denominator. -/
  den : Expr κ

variable {κ : Type} [Number κ]

open Arithmetic (isZero isOne integer? one)

/-- A product in which factors of one are left out. -/
def times (a b : Expr κ) : Expr κ :=
  if a.isOneConst then b else if b.isOneConst then a else .mul a b

/-- A power in which an exponent of one and a base of one are left out. -/
def toPower (e : Expr κ) (k : κ) : Expr κ :=
  if isOne k || e.isOneConst then e else .pow e (.const k)

namespace Fraction

/-- An expression over one. -/
def whole (e : Expr κ) : Fraction κ := ⟨e, .const one⟩

/-- Two fractions joined by an operation on numerators over one denominator. -/
def join (op : Expr κ → Expr κ → Expr κ) (p q : Fraction κ) : Fraction κ :=
  if p.den.same q.den then ⟨op p.num q.num, p.den⟩
  else ⟨op (p.num.times q.den) (q.num.times p.den), p.den.times q.den⟩

/-- The product of two fractions. -/
def mul (p q : Fraction κ) : Fraction κ := ⟨p.num.times q.num, p.den.times q.den⟩

/-- The quotient of two fractions. -/
def div (p q : Fraction κ) : Fraction κ := ⟨p.num.times q.den, p.den.times q.num⟩

/-- An integer power of a fraction. -/
def pow (p : Fraction κ) (k : κ) : Fraction κ :=
  if Arithmetic.isNegative k then ⟨p.den.toPower (-k), p.num.toPower (-k)⟩
  else ⟨p.num.toPower k, p.den.toPower k⟩

end Fraction

/-- An expression as a fraction. -/
def toFraction : Expr κ → Fraction κ
  | .add a b => .join .add a.toFraction b.toFraction
  | .sub a b => .join .sub a.toFraction b.toFraction
  | .mul a b => a.toFraction.mul b.toFraction
  | .div a b => a.toFraction.div b.toFraction
  | .pow a (.const k) =>
      if (integer? k).isSome then a.toFraction.pow k else .whole (.pow a (.const k))
  | e => .whole e

/-- The expression as a single fraction with expanded numerator and denominator. -/
def rationalize (e : Expr κ) : Expr κ :=
  let p := e.simplify.toFraction
  let num := p.num.expand
  match p.den.expand with
  | .const c =>
      if isOne c then num
      else if isZero c then .div num (.const c)
      else (Expr.div num (.const c)).expand
  | den => .div num den

end Reckoner.Expr
