/-
**Derivatives.**

The derivative of an expression by one variable, with every other symbol constant.  The result
is the tree the rules give and is not simplified.

A power has three rules.  Which one applies is decided by the occurrence of the variable: the
power rule when the exponent does not mention it, the exponential rule when the base does not,
and otherwise the rule for both, which is the derivative of the exponential of the exponent times
the logarithm of the base.

Main definitions:

* `Reckoner.Elementary.slope` — the derivative of an elementary function of `u`, given the
  derivative of `u`;
* `Reckoner.Expr.derivative` — the derivative of an expression.
-/

import Reckoner.Expr.Basic

set_option autoImplicit false

namespace Reckoner

variable {κ : Type} [Arithmetic κ]

/-- The derivative of `f u`, given the derivative `du` of `u`. -/
def Elementary.slope (f : Elementary) (u du : Expr κ) : Expr κ :=
  let square (e : Expr κ) : Expr κ := .pow e (.ofInt 2)
  match f with
  | .exp => .mul (.apply .exp u) du
  | .ln => .div du u
  | .log10 => .div du (.mul u (.const Arithmetic.ln10))
  | .sqrt => .div du (.mul (.ofInt 2) (.apply .sqrt u))
  | .abs => .mul (.div u (.apply .abs u)) du
  | .sin => .mul (.apply .cos u) du
  | .cos => .mul (.negated (.apply .sin u)) du
  | .tan => .mul (.div (.ofInt 1) (square (.apply .cos u))) du
  | .cot => .mul (.div (.ofInt (-1)) (square (.apply .sin u))) du
  | .arcsin => .div du (.apply .sqrt (.sub (.ofInt 1) (square u)))
  | .arccos => .div (.negated du) (.apply .sqrt (.sub (.ofInt 1) (square u)))
  | .arctan => .div du (.add (.ofInt 1) (square u))
  | .arccot => .div (.negated du) (.add (.ofInt 1) (square u))

namespace Expr

/-- The derivative by `x`. -/
def derivative (x : String) : Expr κ → Expr κ
  | .var y => if y = x then ofInt 1 else ofInt 0
  | .const _ => ofInt 0
  | .add a b => .add (a.derivative x) (b.derivative x)
  | .sub a b => .sub (a.derivative x) (b.derivative x)
  | .mul a b => .add (.mul (a.derivative x) b) (.mul a (b.derivative x))
  | .div a b =>
      .div (.sub (.mul (a.derivative x) b) (.mul (b.derivative x) a)) (.pow b (ofInt 2))
  | .pow a b =>
      if !b.mentions x then .mul (.mul b (.pow a (.sub b (ofInt 1)))) (a.derivative x)
      else if !a.mentions x then .mul (.mul (.pow a b) (.apply .ln a)) (b.derivative x)
      else
        .mul (.pow a b)
          (.add (.mul (b.derivative x) (.apply .ln a)) (.div (.mul b (a.derivative x)) a))
  | .apply f a => f.slope a (a.derivative x)

end Expr

end Reckoner
