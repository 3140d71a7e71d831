/-
**Scalars of TOML.**

The values of TOML that are written as one word: integers, floating-point numbers, truth values,
dates and times.  Settings need none of them, so that only their form and their range are
checked.

Main definitions:

* `Reckoner.Toml.isNumber` — integers in four bases and floating-point numbers;
* `Reckoner.Toml.isDate`, `Reckoner.Toml.isTime`, `Reckoner.Toml.isMoment` — dates, times of day
  and both together, with an offset or without;
* `Reckoner.Toml.isScalar` — all of them.
-/

import Reckoner.Number.Binary64

set_option autoImplicit false

namespace Reckoner.Toml

/-! ### Numbers -/

/-- Digits of a kind, with single underscores between them. -/
def isDigits (digit : Char → Bool) : List Char → Bool
  | [] => false
  | [c] => digit c
  | c :: '_' :: cs => digit c && isDigits digit cs
  | c :: cs => digit c && isDigits digit cs

/-- A text without a sign in front. -/
def dropSign : List Char → List Char
  | '+' :: cs | '-' :: cs => cs
  | cs => cs

/-- Decimal digits without a zero in front. -/
def isWhole (cs : List Char) : Bool :=
  isDigits Char.isDigit cs && (cs.length == 1 || cs.head? != some '0')

/-- A character of a decimal number between its points and signs. -/
def isDigitOrUnderscore (c : Char) : Bool := c.isDigit || c == '_'

/-- Nothing, or a power of ten. -/
def isPowerOfTen : List Char → Bool
  | [] => true
  | c :: cs => (c == 'e' || c == 'E') && isDigits Char.isDigit (dropSign cs)

/-- A decimal number, whole or not. -/
def isDecimal (cs : List Char) : Bool :=
  isWhole (cs.takeWhile isDigitOrUnderscore) &&
    match cs.dropWhile isDigitOrUnderscore with
    | '.' :: rest =>
        isDigits Char.isDigit (rest.takeWhile isDigitOrUnderscore) &&
          isPowerOfTen (rest.dropWhile isDigitOrUnderscore)
    | rest => isPowerOfTen rest

/-- A hexadecimal digit. -/
def isHexDigit (c : Char) : Bool :=
  c.isDigit || ('a' ≤ c && c ≤ 'f') || ('A' ≤ c && c ≤ 'F')

/-- The value of a hexadecimal digit. -/
def hexValue (c : Char) : Nat :=
  if c.isDigit then c.toNat - '0'.toNat else c.toLower.toNat - 'a'.toNat + 10

/-- The value of digits in a base, underscores apart. -/
def natural (base : Nat) (cs : List Char) : Nat :=
  cs.foldl (fun n c => if c == '_' then n else base * n + hexValue c) 0

/-- Digits in a base, of a value within 128 bits. -/
def isNatural (base : Nat) (digit : Char → Bool) (cs : List Char) : Bool :=
  isDigits digit cs && natural base cs < Nat.pow 2 128

/-- A whole number in decimal digits: within 128 bits, or with its sign within them. -/
def isInteger (cs : List Char) : Bool :=
  let body := dropSign cs
  isWhole body &&
    if cs.head? == some '-' then natural 10 body ≤ Nat.pow 2 127
    else natural 10 body < Nat.pow 2 128

/-- A decimal number that is not whole in form and does not round to infinity. -/
def isFloat (cs : List Char) : Bool :=
  let body := dropSign cs
  !isWhole body && isDecimal body &&
    (Arithmetic.readFinite? (κ := Float) (body.filter (· != '_'))).isSome

/-- A number. -/
def isNumber (cs : List Char) : Bool :=
  match cs with
  | '0' :: 'x' :: rest => isNatural 16 isHexDigit rest
  | '0' :: 'o' :: rest => isNatural 8 (fun c => '0' ≤ c && c ≤ '7') rest
  | '0' :: 'b' :: rest => isNatural 2 (fun c => c == '0' || c == '1') rest
  | cs => ["inf".toList, "nan".toList].contains (dropSign cs) || isInteger cs || isFloat cs

/-! ### Dates and times -/

/-- The value of a run of exactly `n` digits. -/
def number? (n : Nat) (cs : List Char) : Option Nat :=
  if cs.length == n && cs.all Char.isDigit then
    some (cs.foldl (fun m c => 10 * m + (c.toNat - '0'.toNat)) 0)
  else none

/-- The number of days of a month. -/
def daysIn (year month : Nat) : Nat :=
  if month == 2 then
    if year % 4 == 0 && (year % 100 != 0 || year % 400 == 0) then 29 else 28
  else if [4, 6, 9, 11].contains month then 30
  else 31

/-- A date. -/
def isDate : List Char → Bool
  | [a, b, c, d, '-', e, f, '-', g, h] =>
      match number? 4 [a, b, c, d], number? 2 [e, f], number? 2 [g, h] with
      | some year, some month, some day =>
          1 ≤ month && month ≤ 12 && 1 ≤ day && day ≤ daysIn year month
      | _, _, _ => false
  | _ => false

/-- Two digits with a value up to `most`. -/
def isUpTo (most : Nat) (a b : Char) : Bool := (number? 2 [a, b]).any (· ≤ most)

/-- Nothing, or the digits of a fraction after a point. -/
def isFraction : List Char → Bool
  | [] => true
  | '.' :: cs => !cs.isEmpty && cs.all Char.isDigit
  | _ => false

/-- A time of day. -/
def isTime : List Char → Bool
  | a :: b :: ':' :: c :: d :: ':' :: e :: f :: rest =>
      isUpTo 23 a b && isUpTo 59 c d && isUpTo 60 e f && isFraction rest
  | _ => false

/-- An offset from universal time. -/
def isOffset : List Char → Bool
  | ['Z'] | ['z'] => true
  | [s, a, b, ':', c, d] => (s == '+' || s == '-') && isUpTo 23 a b && isUpTo 59 c d
  | _ => false

/-- A time of day with an offset or without. -/
def isZonedTime (cs : List Char) : Bool :=
  let isClock (c : Char) : Bool := c.isDigit || c == ':' || c == '.'
  isTime (cs.takeWhile isClock) &&
    (cs.all isClock || isOffset (cs.dropWhile isClock))

/-- A date and a time of day, divided by a letter or a blank. -/
def isMoment (cs : List Char) : Bool :=
  isDate (cs.take 10) &&
    match cs.drop 10 with
    | c :: rest => ['T', 't', ' '].contains c && isZonedTime rest
    | [] => false

/-! ### Words -/

/-- A value that is written as one word, or as two with a blank for a date and a time. -/
def isScalar (cs : List Char) : Bool :=
  cs == "true".toList || cs == "false".toList || isNumber cs
    || isDate cs || isTime cs || isMoment cs

end Reckoner.Toml
