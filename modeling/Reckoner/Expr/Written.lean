/-
**Expressions as text.**

The plain notation of an expression, with brackets around every operation and around negative
numbers, so that the text determines the tree.

Main definitions:

* `Reckoner.Elementary.name` — the name under which a function is written;
* `Reckoner.Elementary.ofName?` — the function of a name, other spellings included;
* `Reckoner.Expr.text` — the plain notation.
-/

import Reckoner.Expr.Basic

set_option autoImplicit false

namespace Reckoner

namespace Elementary

/-- The name under which a function is written. -/
def name : Elementary → String
  | .exp => "exp"
  | .ln => "ln"
  | .log10 => "log10"
  | .sqrt => "sqrt"
  | .abs => "abs"
  | .sin => "sin"
  | .cos => "cos"
  | .tan => "tan"
  | .cot => "cot"
  | .arcsin => "arcsin"
  | .arccos => "arccos"
  | .arctan => "arctan"
  | .arccot => "arccot"

/-- The function of a name.  Several have more than one. -/
def ofName? : String → Option Elementary
  | "exp" => some .exp
  | "ln" | "log" => some .ln
  | "log10" => some .log10
  | "sqrt" => some .sqrt
  | "abs" => some .abs
  | "sin" => some .sin
  | "cos" => some .cos
  | "tan" | "tg" => some .tan
  | "cot" | "ctg" => some .cot
  | "asin" | "arcsin" => some .arcsin
  | "acos" | "arccos" => some .arccos
  | "atan" | "arctan" | "arctg" => some .arctan
  | "acot" | "arccot" | "arcctg" => some .arccot
  | _ => none

/-- A function is found again under the name it is written with. -/
@[simp] theorem ofName?_name (f : Elementary) : ofName? f.name = some f := by
  cases f <;> rfl

end Elementary

namespace Expr

variable {κ : Type} [Number κ]

/-- A number in brackets if it is negative. -/
def constText (c : κ) : String :=
  if Arithmetic.isNegative c then "(" ++ Number.text c ++ ")" else Number.text c

/-- The plain notation of an expression. -/
def text : Expr κ → String
  | .var x => x
  | .const c => constText c
  | .add a b => "(" ++ a.text ++ " + " ++ b.text ++ ")"
  | .sub a b => "(" ++ a.text ++ " - " ++ b.text ++ ")"
  | .mul a b => "(" ++ a.text ++ " * " ++ b.text ++ ")"
  | .div a b => "(" ++ a.text ++ " / " ++ b.text ++ ")"
  | .pow a b => "(" ++ a.text ++ " ^ " ++ b.text ++ ")"
  | .apply f a => f.name ++ "(" ++ a.text ++ ")"

end Expr

end Reckoner
