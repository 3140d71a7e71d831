/-
**Formulas in answers.**

An answer may be a formula of numbers, names, operators and function calls.  It is cut into
tokens and evaluated from left to right with a stack of values and a stack of operators that wait
for their right operand.  Products are always written out, and powers bind tighter than signs.

Main definitions:

* `Reckoner.Judge.Token`, `Reckoner.Judge.tokens?` — the tokens of a text;
* `Reckoner.Judge.Operator` — the binary operators, with their binding strengths;
* `Reckoner.Judge.Pending` — what waits on the stack of operators;
* `Reckoner.Judge.Machine` — the two stacks, and what is expected next;
* `Reckoner.Judge.evaluate?` — the value of a formula.
-/

import Reckoner.Judge.Functions

set_option autoImplicit false

namespace Reckoner.Judge

/-! ### Tokens -/

/-- The binary operators. -/
inductive Operator
  | plus | minus | times | divide | modulo | power
deriving DecidableEq, Repr

/-- The tokens of a formula. -/
inductive Token
  /-- A number. -/
  | number (value : Float)
  /-- A name that no bracket follows. -/
  | name (name : String)
  /-- A name and the opening bracket after it. -/
  | call (name : String)
  /-- An operator or a sign. -/
  | operator (op : Operator)
  /-- An opening bracket. -/
  | opening
  /-- A closing bracket. -/
  | closing
  /-- A comma. -/
  | comma

/-- The characters that may stand between tokens. -/
def isSpace (c : Char) : Bool := c == ' ' || c == '\t' || c == '\r' || c == '\n'

/-- The first character of a name. -/
def startsName (c : Char) : Bool := c.isAlpha || c == '_'

/-- A later character of a name. -/
def continuesName (c : Char) : Bool := c.isAlphanum || c == '_'

/-- The length of a power of ten at the front of a text, if there is one.  After an `E` there has
to be an integer. -/
def exponentLength? : List Char → Option Nat
  | 'E' :: cs =>
      let rest := (Literal.sign cs).2
      let digits := rest.takeWhile Char.isDigit
      if digits.isEmpty then none else some (1 + (cs.length - rest.length) + digits.length)
  | _ => some 0

/-- The length of a number at the front of a text that begins with a digit. -/
def numberLength? (cs : List Char) : Option Nat :=
  let whole := (cs.takeWhile Char.isDigit).length
  let mantissa := match cs.drop whole with
    | '.' :: rest => whole + 1 + (rest.takeWhile Char.isDigit).length
    | _ => whole
  (exponentLength? (cs.drop mantissa)).map (mantissa + ·)

/-- A number at the front of a text, with its length. -/
def numberToken? (cs : List Char) : Option (Token × Nat) := do
  let n ← numberLength? cs
  let l ← Literal.read (cs.take n)
  return (.number (Arithmetic.ofLiteral l), n)

/-- A name at the front of a text, with the bracket after it if there is one, and its length. -/
def nameToken (cs : List Char) : Token × Nat :=
  let name := cs.takeWhile continuesName
  let rest := cs.drop name.length
  match rest.dropWhile isSpace with
  | '(' :: after => (.call (String.ofList name), cs.length - after.length)
  | _ => (.name (String.ofList name), name.length)

/-- The token at the front of a text, with its length. -/
def token? (c : Char) (cs : List Char) : Option (Token × Nat) :=
  if c.isDigit then numberToken? (c :: cs)
  else if startsName c then some (nameToken (c :: cs))
  else match c with
    | '+' => some (.operator .plus, 1)
    | '-' => some (.operator .minus, 1)
    | '*' => some (.operator .times, 1)
    | '/' => some (.operator .divide, 1)
    | '%' => some (.operator .modulo, 1)
    | '^' => some (.operator .power, 1)
    | '(' => some (.opening, 1)
    | ')' => some (.closing, 1)
    | ',' => some (.comma, 1)
    | _ => none

/-- The tokens of a text, when the first `skip` characters belong to a token already read. -/
def tokensFrom : Nat → List Char → Option (List Token)
  | _, [] => some []
  | skip + 1, _ :: cs => tokensFrom skip cs
  | 0, c :: cs =>
      if isSpace c then tokensFrom 0 cs
      else match token? c cs with
        | some (t, n) => (tokensFrom (n - 1) cs).map (t :: ·)
        | none => none

/-- The tokens of a text. -/
def tokens? (cs : List Char) : Option (List Token) := tokensFrom 0 cs

/-! ### Operators -/

namespace Operator

/-- The value of an operation. -/
def apply : Operator → Float → Float → Float
  | .plus, x, y => x + y
  | .minus, x, y => x - y
  | .times, x, y => x * y
  | .divide, x, y => x / y
  | .modulo, x, y => remainder x y
  | .power, x, y => Float.pow x y

/-- The binding strength.  Signs have the strength three. -/
def strength : Operator → Nat
  | .plus | .minus => 1
  | .times | .divide | .modulo => 2
  | .power => 4

end Operator

/-- What waits for its right operand. -/
inductive Pending
  /-- A binary operator, whose left operand is on the stack of values. -/
  | binary (op : Operator)
  /-- A sign, which negates or does nothing. -/
  | sign (negates : Bool)
  /-- An open bracket. -/
  | group
  /-- An open function call with this many arguments in front of the current one. -/
  | call (name : String) (arguments : Nat)
deriving DecidableEq, Repr

namespace Pending

/-- The binding strength, for operators and signs. -/
def strength? : Pending → Option Nat
  | .binary op => some op.strength
  | .sign _ => some 3
  | _ => none

/-- Whether what waits takes its right operand before the operator `op` does. -/
def precedes (op : Operator) (p : Pending) : Bool :=
  match p.strength? with
  | some n => op.strength < n || (op.strength = n && op ≠ .power)
  | none => false

/-- Applies what waits to the values on the stack, the last one on top. -/
def apply : Pending → List Float → Option (List Float)
  | .binary op, y :: x :: values => some (op.apply x y :: values)
  | .sign negates, x :: values => some ((if negates then -x else x) :: values)
  | _, _ => none

end Pending

/-! ### Evaluation -/

/-- The state of an evaluation. -/
structure Machine where
  /-- The values, the last one first. -/
  values : List Float := []
  /-- What waits for its right operand, the last one first. -/
  pending : List Pending := []
  /-- Whether an operand comes next, rather than an operator or a closing bracket. -/
  wantsOperand : Bool := true

/-- Applies what waits, as long as it satisfies a condition. -/
def applyWhile (condition : Pending → Bool) :
    List Float → List Pending → Option (List Float × List Pending)
  | values, [] => some (values, [])
  | values, p :: pending =>
      if condition p then do applyWhile condition (← p.apply values) pending
      else some (values, p :: pending)

namespace Machine

/-- An operand has been read. -/
def push (m : Machine) (x : Float) : Machine :=
  { m with values := x :: m.values, wantsOperand := false }

/-- Something begins to wait for an operand. -/
def wait (m : Machine) (p : Pending) : Machine :=
  { m with pending := p :: m.pending, wantsOperand := true }

/-- Reads a token where an operand begins. -/
def operandStep (m : Machine) : Token → Option Machine
  | .number x => some (m.push x)
  | .name s => (constant? s).map m.push
  | .call s => some (m.wait (.call s 0))
  | .operator .plus => some (m.wait (.sign false))
  | .operator .minus => some (m.wait (.sign true))
  | .opening => some (m.wait .group)
  | _ => none

/-- Closes the bracket opened last, and applies the function it belongs to. -/
def close (m : Machine) : Option Machine := do
  let (values, pending) ← applyWhile (·.strength?.isSome) m.values m.pending
  match pending with
  | .group :: pending => return { values := values, pending := pending, wantsOperand := false }
  | .call s n :: pending =>
      let x ← function? s (values.take (n + 1)).reverse
      return { values := x :: values.drop (n + 1), pending := pending, wantsOperand := false }
  | _ => none

/-- Ends an argument of the function call opened last. -/
def nextArgument (m : Machine) : Option Machine := do
  let (values, pending) ← applyWhile (·.strength?.isSome) m.values m.pending
  match pending with
  | .call s n :: pending =>
      return { values := values, pending := .call s (n + 1) :: pending, wantsOperand := true }
  | _ => none

/-- Reads a token after an operand. -/
def operatorStep (m : Machine) : Token → Option Machine
  | .operator op => do
      let (values, pending) ← applyWhile (·.precedes op) m.values m.pending
      return { values := values, pending := .binary op :: pending, wantsOperand := true }
  | .closing => m.close
  | .comma => m.nextArgument
  | _ => none

/-- Reads a token. -/
def step (m : Machine) (t : Token) : Option Machine :=
  if m.wantsOperand then m.operandStep t else m.operatorStep t

/-- The value when all tokens have been read. -/
def finish (m : Machine) : Option Float :=
  if m.wantsOperand then none
  else
    match applyWhile (·.strength?.isSome) m.values m.pending with
    | some ([x], []) => some x
    | _ => none

end Machine

/-- The value of a formula. -/
def evaluate? (cs : List Char) : Option Float := do
  let m ← (← tokens? cs).foldlM Machine.step {}
  m.finish

end Reckoner.Judge
