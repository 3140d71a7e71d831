/-
**Numbers in text.**

The written form of one number: an optional sign, then decimal digits with at most one point and
an optional power of ten, or one of the words for infinity and for an undefined number in any
case.  Nothing may surround it, blanks included.

Main definitions:

* `Reckoner.Literal` — what such a text denotes;
* `Reckoner.Literal.read` — reading it from the whole of a text.
-/

set_option autoImplicit false

namespace Reckoner

/-- A number as it is written. -/
inductive Literal
  /-- The word for an undefined number. -/
  | undefined
  /-- A word for infinity, with its sign. -/
  | infinite (negative : Bool)
  /-- The number `digits * 10 ^ power`, with its sign. -/
  | decimal (negative : Bool) (digits : Nat) (power : Int)
deriving DecidableEq

namespace Literal

/-- The value of a run of decimal digits. -/
def natural (cs : List Char) : Nat :=
  cs.foldl (fun n c => 10 * n + (c.toNat - '0'.toNat)) 0

/-- The sign in front of a text, and what follows it. -/
def sign : List Char → Bool × List Char
  | '-' :: cs => (true, cs)
  | '+' :: cs => (false, cs)
  | cs => (false, cs)

/-- A power of ten after a significand: nothing, or `e` in either case and an integer. -/
def power? : List Char → Option Int
  | [] => some 0
  | c :: cs =>
      let (negative, cs) := sign cs
      if (c == 'e' || c == 'E') && !cs.isEmpty && cs.all Char.isDigit then
        some (if negative then -(natural cs : Int) else natural cs)
      else none

/-- An unsigned decimal number: digits with at most one point, at least one digit, and a power
of ten. -/
def unsigned? (negative : Bool) (cs : List Char) : Option Literal :=
  let whole := cs.takeWhile Char.isDigit
  let (fraction, rest) := match cs.dropWhile Char.isDigit with
    | '.' :: rest => (rest.takeWhile Char.isDigit, rest.dropWhile Char.isDigit)
    | rest => ([], rest)
  if whole.isEmpty && fraction.isEmpty then none
  else (power? rest).map fun power =>
    .decimal negative (natural (whole ++ fraction)) (power - fraction.length)

/-- The number that a text denotes, if it is the written form of one. -/
def read (cs : List Char) : Option Literal :=
  let (negative, cs) := sign cs
  let word := String.ofList (cs.map Char.toLower)
  if word == "inf" || word == "infinity" then some (.infinite negative)
  else if word == "nan" then some .undefined
  else unsigned? negative cs

end Literal

end Reckoner
