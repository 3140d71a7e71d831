/-
**Expressions in LaTeX.**

The LaTeX of an expression has brackets only where the binding strength of an operation needs
them.  Fractions, roots and powers group their parts by themselves; a negated summand is written
as a subtraction.

Main definitions:

* `Reckoner.Expr.Strength`, `Reckoner.Expr.strength` — how tightly an expression is bound;
* `Reckoner.Expr.opposite?` — the opposite of a summand with a negative number in front;
* `Reckoner.Expr.latex` — the LaTeX of an expression.
-/

import Reckoner.Expr.Written
import Reckoner.Number.Format

set_option autoImplicit false

namespace Reckoner.Expr

open Arithmetic (isNegative)

variable {κ : Type} [Number κ]

/-! ### Parts -/

/-- LaTeX in braces. -/
def braced (s : String) : String := "\x7b" ++ s ++ "\x7d"

/-- LaTeX in round brackets that grow with their content. -/
def bracketed (s : String) : String := "\\left(" ++ s ++ "\\right)"

/-- A variable: a command for the named constants, a letter as it is, and upright for longer
names. -/
def variableLatex (name : String) : String :=
  if name == "pi" || name == "π" then "\\pi"
  else if name == "hbar" then "\\hbar"
  else if name == "Infinity" then "\\infty"
  else if name.length == 1 then name
  else "\\mathrm" ++ braced name

/-- The command of a function that is written in front of its argument. -/
def commandLatex : Elementary → String
  | .log10 => "\\log_" ++ braced "10"
  | .arccot => "\\operatorname" ++ braced "arccot"
  | f => "\\" ++ f.name

/-- How tightly an expression is bound. -/
inductive Strength
  | sum | product | power | atom
deriving DecidableEq

/-- The order of the binding strengths. -/
def Strength.rank : Strength → Nat
  | .sum => 1
  | .product => 2
  | .power => 3
  | .atom => 4

/-- The binding strength of an expression.  A negative number counts as a product. -/
def strength : Expr κ → Strength
  | .add _ _ | .sub _ _ => .sum
  | .mul _ _ => .product
  | .const c => if isNegative c then .product else .atom
  | .pow _ _ => .power
  | _ => .atom

/-- The LaTeX `s` of `e`, in brackets when `e` is bound less tightly than `least`. -/
def grouped (least : Strength) (e : Expr κ) (s : String) : String :=
  if e.strength.rank < least.rank then bracketed s else s

/-- The opposite of a summand with a negative number in front.  A subtraction of the opposite is
written instead of an addition of the summand. -/
def opposite? : Expr κ → Option (Expr κ)
  | .const c => if isNegative c then some (.const (-c)) else none
  | .mul (.const c) b =>
      if Arithmetic.same c Arithmetic.minusOne then some b
      else if isNegative c then some (.mul (.const (-c)) b)
      else none
  | _ => none

theorem size_le_of_opposite? {e o : Expr κ} (h : e.opposite? = some o) : o.size ≤ e.size := by
  unfold opposite? at h
  split at h
  · split at h
    · obtain rfl := Option.some.inj h; simp [size]
    · simp at h
  · split at h
    · obtain rfl := Option.some.inj h; simp only [size]; omega
    · split at h
      · obtain rfl := Option.some.inj h; simp [size]
      · simp at h
  · simp at h

/-- A factor minus one, which is written as a sign. -/
def isMinusOneConst : Expr κ → Bool
  | .const c => Arithmetic.same c Arithmetic.minusOne
  | _ => false

/-! ### Whole expressions -/

/-- The LaTeX of an expression. -/
def latex : Expr κ → String
  | .var x => variableLatex x
  | .const c => (Number.reading c).latex
  | .add a b =>
      match _h : b.opposite? with
      | some o => a.latex ++ "-" ++ grouped .product o o.latex
      | none => a.latex ++ "+" ++ b.latex
  | .sub a b => a.latex ++ "-" ++ grouped .product b b.latex
  | .mul a b =>
      if a.isMinusOneConst then "-" ++ grouped .product b b.latex
      else grouped .product a a.latex ++ "\\cdot " ++ grouped .power b b.latex
  | .div a b => "\\frac" ++ braced a.latex ++ braced b.latex
  | .pow a b => grouped .atom a a.latex ++ "^" ++ braced b.latex
  | .apply .sqrt a => "\\sqrt" ++ braced a.latex
  | .apply .abs a => "\\left|" ++ a.latex ++ "\\right|"
  | .apply f a => commandLatex f ++ bracketed a.latex
termination_by e => e.size
decreasing_by
  all_goals simp only [size]
  all_goals
    first
    | omega
    | have smaller := size_le_of_opposite? _h
      omega

end Reckoner.Expr
