/-
**Reading plain notation.**

A text is read by dividing it by its shape and reading the parts.  Brackets and a plus in front
leave no trace in the tree; a minus in front negates a number and multiplies anything else by
minus one.

Main definitions:

* `Reckoner.ParseError` — why a text is no expression, with its wording;
* `Reckoner.Notation.parse` — the expression that a text denotes;
* `Reckoner.Expr.parse` — the same for strings.
-/

import Reckoner.Expr.Written
import Reckoner.Notation.Shape

set_option autoImplicit false

namespace Reckoner

/-- Why a text is no expression. -/
inductive ParseError
  /-- A text of blanks only. -/
  | empty
  /-- A bracket without a partner, in this text. -/
  | unbalanced (text : String)
  /-- A function call with an unknown name. -/
  | undefinedFunction (name : String)
  /-- Digits and points that form no number. -/
  | invalidNumber (text : String)
  /-- Anything else. -/
  | invalidFormat (text : String)
deriving DecidableEq, Repr

/-- The wording of the reason. -/
def ParseError.message : ParseError → String
  | .empty => "Empty expression"
  | .unbalanced text => "Unbalanced brackets in \"" ++ text ++ "\""
  | .undefinedFunction name => "Undefined function " ++ name
  | .invalidNumber text => "Invalid number \"" ++ text ++ "\""
  | .invalidFormat text => "Invalid expression format \"" ++ text ++ "\""

namespace Notation

variable {κ : Type} [Number κ]

/-- An expression with a minus in front. -/
def minus : Expr κ → Expr κ
  | .const c => .const (-c)
  | e => e.negated

/-- The number that digits and points denote. -/
def parseNumeral (cs : List Char) : Except ParseError (Expr κ) :=
  match Literal.read cs with
  | some l => .ok (.const (Arithmetic.ofLiteral l))
  | none => .error (.invalidNumber (String.ofList cs))

/-- The function of a name, applied to its argument. -/
def parseCall (name : List Char) (a : Expr κ) : Except ParseError (Expr κ) :=
  match Elementary.ofName? (String.ofList name) with
  | some f => .ok (.apply f a)
  | none => .error (.undefinedFunction (String.ofList name))

/-- The expression that a text denotes.  Of two faults the one further left is reported. -/
def parse (text : List Char) : Except ParseError (Expr κ) :=
  match _h : shape (Text.trim text) with
  | .empty => .error .empty
  | .unbalanced => .error (.unbalanced (String.ofList (Text.trim text)))
  | .enclosed e => parse e
  | .sum l r => do return .add (← parse l) (← parse r)
  | .difference l r => do return .sub (← parse l) (← parse r)
  | .product l r => do return .mul (← parse l) (← parse r)
  | .quotient l r => do return .div (← parse l) (← parse r)
  | .negative e => do return minus (← parse e)
  | .positive e => parse e
  | .power l r => do return .pow (← parse l) (← parse r)
  | .call name e => do parseCall name (← parse e)
  | .numeral => parseNumeral (Text.trim text)
  | .identifier => .ok (.var (String.ofList (Text.trim text)))
  | .other => .error (.invalidFormat (String.ofList (Text.trim text)))
termination_by text.length
decreasing_by
  all_goals
    refine Nat.lt_of_lt_of_le (length_lt_of_mem_parts ?_) (Text.length_trim_le text)
    rw [_h]
    simp [Shape.parts]

end Notation

/-- The expression that a string denotes in plain notation. -/
def Expr.parse {κ : Type} [Number κ] (text : String) : Except ParseError (Expr κ) :=
  Notation.parse text.toList

end Reckoner
