/-
**Expansion.**

Products are multiplied out over sums, and so are integer powers of sums up to the sixteenth,
before like terms are collected.  The working form is a list of terms.

A power of a sum is multiplied out factor by factor.  After every factor the like terms are
collected, so that the number of terms stays small, and the collected sum is split into terms
anew; this can bring up a power of a sum that was too high to be multiplied out before.  As in
simplification the rule takes the splitting of such rebuilt sums as a parameter `again`, and the
whole expansion ties the knot as often as the *reach* of an expression allows.  The terms of a sum
reach less far than the sum, and the reach of a product is that of its factors together, so that
a product of terms reaches less far than the product of the sums they come from.

Main definitions:

* `Reckoner.Expr.maxExpandedPower` — the highest power of a sum that is multiplied out;
* `Reckoner.Expr.reach` — the bound on the number of powers within powers;
* `Reckoner.Expr.expandedTermsWith`, `Reckoner.Expr.expandedTerms` — the terms of an expression;
* `Reckoner.Expr.expand` — their collected sum.
-/

import Reckoner.Expr.Simplify

set_option autoImplicit false

namespace Reckoner.Expr

variable {κ : Type} [Number κ]

/-! ### Lists of terms -/

/-- The highest power of a sum that is multiplied out. -/
def maxExpandedPower : Int := 16

/-- The sum of a list of terms, bracketed to the left. -/
def sumOf : List (Expr κ) → Expr κ
  | [] => ofInt 0
  | e :: es => es.foldl .add e

/-- The sum of a list of terms, with like terms collected. -/
def collect (es : List (Expr κ)) : Expr κ := (sumOf es).simplify

/-- The products of every term on the left with every term on the right. -/
def crossProduct (es fs : List (Expr κ)) : List (Expr κ) :=
  es.flatMap fun e => fs.map fun f => .mul e f

/-- An integer exponent that is multiplied out. -/
def expandedExponent? : Expr κ → Option Nat
  | .const c =>
      match Arithmetic.integer? c with
      | some n => if 0 ≤ n && n ≤ maxExpandedPower then some n.toNat else none
      | none => none
  | _ => none

/-- The terms of the `n`-th power of a sum of terms.  The terms are collected after every
factor. -/
def powerTerms (again : Expr κ → List (Expr κ)) (es : List (Expr κ)) : Nat → List (Expr κ)
  | 0 => [.const Arithmetic.one]
  | n + 1 => again (collect (crossProduct (powerTerms again es n) es))

/-! ### Reach -/

/-- A natural number as an exponent. -/
def naturalExponent? : Expr κ → Option Nat
  | .const c =>
      match Arithmetic.integer? c with
      | some n => if 0 ≤ n then some n.toNat else none
      | none => none
  | _ => none

/-- How often a power counts its base at most: once more than a power that is multiplied out has
factors. -/
def maxMultiplicity : Nat := 17

/-- How often a power with a natural exponent counts its base. -/
def multiplicity (n : Nat) : Nat := max 2 (min n maxMultiplicity)

/-- What an expression of reach `n` contributes as a term: a sum stands for its own terms. -/
def asTerm (e : Expr κ) (n : Nat) : Nat := if e.isSum then n else n + 1

/-- The reach of an expression.  A power with an exponent other than a natural number counts its
base as often as any, because simplification may still turn the exponent into such a number. -/
def reach : Expr κ → Nat
  | .var _ => 1
  | .const _ => 0
  | .add a b | .sub a b => max (a.asTerm a.reach) (b.asTerm b.reach)
  | .mul a b => a.reach + b.reach
  | .div a b => a.reach + maxMultiplicity * b.reach + 2
  | .pow a b =>
      match b.naturalExponent? with
      | some n => multiplicity n * a.reach
      | none => maxMultiplicity * a.reach + b.asTerm b.reach + 1
  | .apply _ a => a.reach + 1

/-! ### Expressions -/

/-- The terms of an expression, with `again` for the sums that arise from powers. -/
def expandedTermsWith (again : Expr κ → List (Expr κ)) : Expr κ → List (Expr κ)
  | .add a b => a.expandedTermsWith again ++ b.expandedTermsWith again
  | .sub a b => a.expandedTermsWith again ++ (b.expandedTermsWith again).map .negated
  | .mul a b => crossProduct (a.expandedTermsWith again) (b.expandedTermsWith again)
  | .div a b =>
      let den := collect (b.expandedTermsWith again)
      (a.expandedTermsWith again).map fun e => .div e den
  | .pow a b =>
      let es := a.expandedTermsWith again
      match b.expandedExponent? with
      | some n => if es.length < 2 then [.pow (collect es) b] else powerTerms again es n
      | none => [.pow (collect es) (collect (b.expandedTermsWith again))]
  | .apply f a => [.apply f (collect (a.expandedTermsWith again))]
  | .var x => [.var x]
  | .const c => [.const c]

/-- The terms of an expression, in which powers within powers are multiplied out at most `n`
deep. -/
def expandedTermsWithin : Nat → Expr κ → List (Expr κ)
  | 0 => expandedTermsWith fun e => [e]
  | n + 1 => expandedTermsWith (expandedTermsWithin n)

/-- The terms of an expression: no product of sums is left among them. -/
def expandedTerms (e : Expr κ) : List (Expr κ) := e.expandedTermsWith (expandedTermsWithin e.reach)

/-- The expression with products and powers of sums multiplied out. -/
def expand (e : Expr κ) : Expr κ := collect e.expandedTerms

end Reckoner.Expr
