/-
**Decimal text.**

Writing a rational number with a fixed count of decimal places, or in scientific notation, and
writing a decimal significand times a power of ten without an exponent.  Rounding to a grid of
decimal places goes to the nearer grid point and, from the middle, to the even one.

Main definitions:

* `Reckoner.Decimal.roundEven` — a quotient rounded to the nearest natural number;
* `Reckoner.Decimal.fixed` — a rational with a fixed count of places;
* `Reckoner.Decimal.plain` — a significand times a power of ten, written out;
* `Reckoner.Decimal.exponent`, `Reckoner.Decimal.scientific` — a rational without its sign, with
  one digit before the point.
-/

set_option autoImplicit false

namespace Reckoner.Decimal

/-! ### Digits -/

/-- The decimal digits of a natural number, most significant first. -/
def digits (n : Nat) : List Char := Nat.toDigits 10 n

/-- The text `cs` with zeros in front up to the length `width`. -/
def padded (width : Nat) (cs : List Char) : List Char :=
  List.replicate (width - cs.length) '0' ++ cs

/-- The text `cs` without its trailing occurrences of `c`. -/
def dropTrailing (c : Char) (cs : List Char) : List Char :=
  (cs.reverse.dropWhile (· == c)).reverse

/-! ### Fixed places -/

/-- The quotient `num / den` rounded to the nearest natural number, from the middle to the even one. -/
def roundEven (num den : Nat) : Nat :=
  let below := num / den
  let rest := num % den
  if 2 * rest < den then below
  else if den < 2 * rest then below + 1
  else below + below % 2

/-- The value `n / 10 ^ places` written with exactly `places` digits after the point, and
without a point when there are none. -/
def pointed (places n : Nat) : List Char :=
  let whole := digits (n / Nat.pow 10 places)
  if places = 0 then whole else whole ++ '.' :: padded places (digits (n % Nat.pow 10 places))

/-- The number `q` with `places` digits after the point.  A negative number keeps its sign when it
rounds to zero. -/
def fixed (places : Nat) (q : Rat) : String :=
  let n := roundEven (q.num.natAbs * Nat.pow 10 places) q.den
  String.ofList (if q < 0 then '-' :: pointed places n else pointed places n)

/-! ### A significand and a power of ten -/

/-- The number `n * 10 ^ power` written without an exponent. -/
def plain (n : Nat) (power : Int) : List Char :=
  match power with
  | .ofNat zeros => digits n ++ List.replicate zeros '0'
  | .negSucc less => pointed (less + 1) n

/-- The largest `e` with `10 ^ e ≤ num / den` for a positive fraction, and zero for zero. -/
def exponent (num den : Nat) : Int :=
  if num = 0 then 0
  else if den ≤ num then (digits (num / den)).length - 1 else -(digits ((den - 1) / num)).length

/-- A rational without its sign, with one digit before the point and `places` after it, followed by
`e` and the power of ten. -/
def scientific (places num den : Nat) : String :=
  let e := exponent num den
  let n := match (places : Int) - e with
    | .ofNat k => roundEven (num * Nat.pow 10 k) den
    | .negSucc k => roundEven num (den * Nat.pow 10 (k + 1))
  let (n, e) := if n = Nat.pow 10 (places + 1) then (Nat.pow 10 places, e + 1) else (n, e)
  String.ofList (pointed places n ++ 'e' :: (toString e).toList)

end Reckoner.Decimal
