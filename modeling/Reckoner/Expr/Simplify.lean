/-
**Simplification.**

An expression is simplified from its leaves upwards: numbers are folded, neutral and absorbing
elements are dropped, the equal bases of a product are merged into one power, and the like terms
of a sum are collected.  A function of a number is replaced by its value only when that is an
integer.

Some rules build a new tree out of simplified parts and simplify that again — a difference from
zero becomes a product with minus one, a quotient of powers of one base becomes a power.  The
rules therefore take the simplification of such trees as a parameter `again`, and the whole
simplification ties the knot as often as the *weight* of an expression allows.  The weight is
chosen such that every rebuilt tree weighs less than the expression it comes from.

Main definitions:

* `Reckoner.Expr.mergeFactors`, `Reckoner.Expr.simplifyProduct` — products;
* `Reckoner.Expr.simplifyAdd`, … , `Reckoner.Expr.simplifyApply` — one operation with simplified
  operands;
* `Reckoner.Expr.simplifyWith` — one pass over an expression;
* `Reckoner.Expr.weight` — the bound on the number of nested passes;
* `Reckoner.Expr.simplify` — the simplification of an expression.
-/

import Reckoner.Expr.Monomial

set_option autoImplicit false

namespace Reckoner.Expr

variable {κ : Type} [Number κ]

open Arithmetic (isZero isOne isNegative integer? nearInteger? one)

/-! ### Sums -/

/-- A sum of two simplified expressions. -/
def simplifyAdd (a b : Expr κ) : Expr κ :=
  match a, b with
  | .const c, .const d => .const (c + d)
  | a, b =>
      if a.isZeroConst then b
      else if b.isZeroConst then a
      else (Expr.add a b).collected?.getD (.add a b)

/-- A difference of two simplified expressions. -/
def simplifySub (again : Expr κ → Expr κ) (a b : Expr κ) : Expr κ :=
  match a, b with
  | .const c, .const d => .const (c - d)
  | a, b =>
      if b.isZeroConst then a
      else if a.same b then ofInt 0
      else if a.isZeroConst then again (.negated b)
      else (Expr.sub a b).collected?.getD (.sub a b)

/-! ### Products -/

/-- The base and the exponent of a power; anything else is its own first power. -/
def baseAndExponent : Expr κ → Expr κ × Expr κ
  | .pow base exponent => (base, exponent)
  | e => (e, ofInt 1)

/-- Multiplies a list of powers by one more power.  The exponents of an equal base are added. -/
def mergePower (again : Expr κ → Expr κ) (base exponent : Expr κ) :
    List (Expr κ × Expr κ) → List (Expr κ × Expr κ)
  | [] => [(base, exponent)]
  | (b, e) :: rest =>
      if b.same base then (b, again (.add e exponent)) :: rest
      else (b, e) :: mergePower again base exponent rest

/-- The product of the numbers among the factors, from `c` on, and the powers of the others, from
`powers` on. -/
def mergeFactors (again : Expr κ → Expr κ) (c : κ) (powers : List (Expr κ × Expr κ)) :
    List (Expr κ) → κ × List (Expr κ × Expr κ)
  | [] => (c, powers)
  | .const d :: rest => mergeFactors again (c * d) powers rest
  | e :: rest =>
      let (base, exponent) := e.baseAndExponent
      mergeFactors again c (mergePower again base exponent powers) rest

/-- A power as a factor.  A power with exponent zero is none, and one with exponent one is its
base. -/
def factor? (p : Expr κ × Expr κ) : Option (Expr κ) :=
  if p.2.isZeroConst then none
  else if p.2.isOneConst then some p.1
  else some (.pow p.1 p.2)

/-- A product with its numbers multiplied and its equal bases merged. -/
def simplifyProduct (again : Expr κ → Expr κ) (e : Expr κ) : Expr κ :=
  let (c, powers) := mergeFactors again one [] e.factors
  if isZero c then ofInt 0
  else
    let factors := powers.filterMap factor?
    Collection.product (if isOne c && !powers.isEmpty then factors else .const c :: factors)

/-- A product of two simplified expressions. -/
def simplifyMul (again : Expr κ → Expr κ) (a b : Expr κ) : Expr κ :=
  match a, b with
  | .const c, .const d => .const (c * d)
  | a, b =>
      if a.isZeroConst || b.isZeroConst then ofInt 0
      else if a.isOneConst then b
      else if b.isOneConst then a
      else if a.isConst && b.isSum then (Expr.mul a b).collected?.getD (.mul a b)
      else simplifyProduct again (.mul a b)

/-! ### Quotients and powers -/

/-- A quotient of powers of one base is a power; any other quotient stays. -/
def simplifyQuotientOfPowers (again : Expr κ → Expr κ) (a b : Expr κ) : Expr κ :=
  let (base, m) := a.baseAndExponent
  let (base', n) := b.baseAndExponent
  if base.same base' && !base.isConst then again (.pow base (again (.sub m n)))
  else .div a b

/-- A quotient of two simplified expressions. -/
def simplifyDiv (again : Expr κ → Expr κ) (a b : Expr κ) : Expr κ :=
  match a, b with
  | .const c, .const d => if isZero d then .div a b else .const (c / d)
  | a, b =>
      if a.isZeroConst then ofInt 0
      else if b.isOneConst then a
      else if a.same b then ofInt 1
      else match a, b with
        | .mul (.const c) a', .const d =>
            if isZero d then simplifyQuotientOfPowers again a b
            else again (.mul (.const (c / d)) a')
        | .mul _ _, .const d =>
            if isZero d then simplifyQuotientOfPowers again a b else .div a b
        | .var _, .const d | .pow _ _, .const d =>
            if isZero d then simplifyQuotientOfPowers again a b
            else again (.mul (.const (one / d)) a)
        | a, b => simplifyQuotientOfPowers again a b

/-- A power with simplified base and exponent. -/
def simplifyPow (again : Expr κ → Expr κ) (a b : Expr κ) : Expr κ :=
  match a, b with
  | .const c, .const d => .const (Arithmetic.pow c d)
  | a, b =>
      if b.isZeroConst then ofInt 1
      else if b.isOneConst then a
      else if a.isOneConst then ofInt 1
      else match a, b with
        | .pow base m, .const n =>
            if (integer? n).isSome then again (.pow base (again (.mul m (.const n))))
            else .pow a b
        | a, b => .pow a b

/-! ### Functions -/

/-- A function of a simplified argument.  The value at a number is taken when it is an
integer. -/
def simplifyApply (f : Elementary) (a : Expr κ) : Expr κ :=
  match a with
  | .const c =>
      match nearInteger? (Arithmetic.apply f c) with
      | some n => ofInt n
      | none => .apply f a
  | a => .apply f a

/-! ### Whole expressions -/

/-- One pass over an expression, with `again` for the trees that a rule rebuilds. -/
def simplifyWith (again : Expr κ → Expr κ) : Expr κ → Expr κ
  | .var x => .var x
  | .const c => .const c
  | .add a b => simplifyAdd (a.simplifyWith again) (b.simplifyWith again)
  | .sub a b => simplifySub again (a.simplifyWith again) (b.simplifyWith again)
  | .mul a b => simplifyMul again (a.simplifyWith again) (b.simplifyWith again)
  | .div a b => simplifyDiv again (a.simplifyWith again) (b.simplifyWith again)
  | .pow a b => simplifyPow again (a.simplifyWith again) (b.simplifyWith again)
  | .apply f a => simplifyApply f (a.simplifyWith again)

/-- Simplification in which trees are rebuilt within rebuilt trees at most `n` deep. -/
def simplifyWithin : Nat → Expr κ → Expr κ
  | 0 => simplifyWith id
  | n + 1 => simplifyWith (simplifyWithin n)

/-- The weight of an expression.  Numbers and products weigh nothing by themselves, so that the
weight does not grow when a number is multiplied out over a sum. -/
def weight : Expr κ → Nat
  | .const _ => 0
  | .var _ => 2
  | .add a b | .sub a b | .pow a b => a.weight + b.weight + 1
  | .mul a b => a.weight + b.weight
  | .div a b => a.weight + b.weight + 3
  | .apply _ a => a.weight + 2

/-- The simplification of an expression. -/
def simplify (e : Expr κ) : Expr κ := simplifyWithin e.weight e

end Reckoner.Expr
