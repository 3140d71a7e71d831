/-
**Finding the request in a text.**

The request is given by a keyword in front and its arguments in brackets up to the end of the
text, or by the quotient of differentials for a derivative.  The forms are tried in a fixed order;
a text that has none of them is an expression to evaluate.

A form only asks that the last character is a closing bracket.  Arguments are divided at the last
comma that allows it, an argument has at least one character, and the expression and the target of
a limit stand on one line.

Main definitions:

* `Reckoner.Request.arguments?` — the text between the brackets after a keyword;
* `Reckoner.Request.variableAfter?`, `Reckoner.Request.limitArguments?` — arguments after a comma;
* `Reckoner.Request.classifyChars`, `Reckoner.Request.classify` — the request of a text.
-/

import Reckoner.Request.Basic

set_option autoImplicit false

namespace Reckoner.Request

open Text (isBlank isLatinLetter isWordChar trim after? cutLast?)

/-! ### Pieces of a text -/

/-- A text of at least one character without line breaks. -/
def isLine (cs : List Char) : Bool := !cs.isEmpty && !cs.contains '\n'

/-- A text without the bracket at its end, if it ends with a closing one. -/
def dropClosing? (cs : List Char) : Option (List Char) :=
  if cs.getLast? = some ')' then some cs.dropLast else none

/-- The text between the bracket after a keyword and the bracket at the end. -/
def arguments? (keyword : String) (cs : List Char) : Option (List Char) := do
  dropClosing? (← after? (keyword.toList ++ ['(']) cs)

/-- A text without the character `c` in front, if it is there. -/
def skip (c : Char) (cs : List Char) : List Char := (after? [c] cs).getD cs

/-- A name after blanks, and what follows it: a letter of ASCII, then characters of a word. -/
def nameAfterBlanks? (cs : List Char) : Option (List Char × List Char) :=
  match cs.dropWhile isBlank with
  | c :: rest =>
      if isLatinLetter c then some (c :: rest.takeWhile isWordChar, rest.dropWhile isWordChar)
      else none
  | [] => none

/-! ### Arguments -/

/-- An expression and a name, divided by the last comma. -/
def variableAfter? (cs : List Char) : Option (List Char × List Char) :=
  match cutLast? ',' cs with
  | some (l, r) =>
      match nameAfterBlanks? r with
      | some (x, []) => if isLine l then some (l, x) else none
      | _ => none
  | none => none

/-- A target after the arrow of a limit.  Blanks in front do not count, unless there is nothing
else on the line. -/
def target? (cs : List Char) : Option (List Char) :=
  match cs.dropWhile isBlank with
  | [] => if cs.getLast?.any (· != '\n') then some [] else none
  | rest => if rest.contains '\n' then none else some rest

/-- A name, an arrow and a target. -/
def approach? (cs : List Char) : Option (List Char × List Char) := do
  let (x, rest) ← nameAfterBlanks? cs
  let rest ← after? "->".toList (rest.dropWhile isBlank)
  return (x, ← target? rest)

/-- A line, a comma, a name, an arrow and a target.  The last comma that allows it divides. -/
def approachAfter? : List Char → Option (List Char × List Char × List Char)
  | [] => none
  | c :: cs =>
      if c = '\n' then none
      else match approachAfter? cs with
        | some (l, x, target) => some (c :: l, x, target)
        | none => if c = ',' then (approach? cs).map fun p => ([], p.1, p.2) else none

/-- The three arguments of a limit. -/
def limitArguments? : List Char → Option (List Char × List Char × List Char)
  | [] => none
  | c :: cs =>
      if c = '\n' then none else (approachAfter? cs).map fun p => (c :: p.1, p.2.1, p.2.2)

/-- The variable and the expression of a derivative that is written with differentials, with or
without brackets around them and a sign of multiplication after them. -/
def differentials? (cs : List Char) : Option (Char × List Char) := do
  let cs ← after? ['d'] (skip '(' cs)
  let cs ← after? ['/'] (skip ')' cs)
  let cs ← after? ['d'] (skip '(' cs)
  match cs with
  | x :: cs =>
      if isLatinLetter x then
        let e ← dropClosing? (← after? ['('] (skip '*' (skip ')' cs)))
        if isLine e then some (x, e) else none
      else none
  | [] => none

/-! ### Requests -/

/-- A piece of a text as an argument, without blanks at its ends. -/
def argument (cs : List Char) : String := String.ofList (trim cs)

/-- A derivative by the quotient of differentials. -/
def differentialForm? (cs : List Char) : Option Request :=
  (differentials? cs).map fun p => .derivative (argument p.2) (String.singleton p.1)

/-- A derivative by its keyword, with a default for its variable. -/
def derivativeForm? (default : String) (cs : List Char) : Option Request := do
  let arguments ← arguments? "derivative" cs
  match variableAfter? arguments with
  | some (e, x) => return .derivative (argument e) (String.ofList x)
  | none => if isLine arguments then some (.derivative (argument arguments) default) else none

/-- A request with one argument. -/
def simpleForm? (keyword : String) (request : String → Request) (cs : List Char) :
    Option Request := do
  let e ← arguments? keyword cs
  if isLine e then some (request (argument e)) else none

/-- An equation and its unknown. -/
def solveForm? (cs : List Char) : Option Request := do
  let (e, x) ← variableAfter? (← arguments? "solve" cs)
  return .solve (argument e) (String.ofList x)

/-- A limit. -/
def limitForm? (cs : List Char) : Option Request := do
  let (e, x, target) ← limitArguments? (← arguments? "limit" cs)
  return .limit (argument e) (String.ofList x) (argument target)

/-- The request of a text without blanks at its ends. -/
def classifyChars (default : String) (cs : List Char) : Request :=
  (differentialForm? cs
    <|> derivativeForm? default cs
    <|> simpleForm? "simplify" .simplify cs
    <|> simpleForm? "expand" .expand cs
    <|> simpleForm? "factor" .factor cs
    <|> solveForm? cs
    <|> limitForm? cs).getD (.evaluate (String.ofList cs))

/-- The request of a canonical text.  A derivative that names no variable is taken by
`default`. -/
def classify (default text : String) : Request := classifyChars default (trim text.toList)

end Reckoner.Request
