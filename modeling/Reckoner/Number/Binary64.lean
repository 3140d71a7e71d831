/-
**Binary numbers of 64 bits.**

The numbers of the running program.  A finite one is a sign, a natural significand and a power
of two, and so has an exact rational value.  Its text is the decimal number of fewest digits
that lies in the interval of reals rounding to it: the coarsest decimal grid with a point in
that interval gives the digits, and of two such points the nearer one, the upper one from the
middle.

Main definitions:

* `Reckoner.Binary64.reading` — the exact value;
* `Reckoner.Binary64.shortest` — the digits and the power of ten of the shortest text;
* `Reckoner.Binary64.text` — that text, written out without an exponent.

The instance at the end makes these numbers an arithmetic of the calculator.
-/

import Reckoner.Number.Arithmetic
import Reckoner.Number.Decimal

set_option autoImplicit false

namespace Reckoner.Binary64

open Float.Model (UnpackedFloat)

/-! ### Exact values -/

/-- The rational number `m * 2 ^ q`. -/
def dyadic (m : Nat) (q : Int) : Rat :=
  match q with
  | .ofNat k => ((m * Nat.pow 2 k : Nat) : Rat)
  | .negSucc k => mkRat m (Nat.pow 2 (k + 1))

/-- The exact content of a binary number.  The two zeros have one value. -/
def reading (x : Float) : Reading :=
  match x.toModel.unpack with
  | .notANumber => .undefined
  | .infinity s => .infinite (s == .negative)
  | .zero _ => .finite 0
  | .finite s m q _ => .finite (if s == .negative then -(dyadic m q) else dyadic m q)

/-- Whether the sign of a number is negative, also that of a zero. -/
def hasMinus (x : Float) : Bool := x.toBits >>> 63 == 1

/-! ### Shortest text -/

/-- A value together with the ends of the interval of reals that round to it, as numerators over
one denominator; the ends belong to the interval or not. -/
structure Neighbourhood where
  /-- The lower end. -/
  low : Nat
  /-- The value itself. -/
  centre : Nat
  /-- The upper end. -/
  high : Nat
  /-- The common denominator. -/
  den : Nat
  /-- Whether the ends round to the value. -/
  closed : Bool

/-- The neighbourhood of `m * 2 ^ q`.  Below a power of two the neighbours are half as far. -/
def neighbourhood (m : Nat) (q : Int) : Neighbourhood :=
  let unit := if m = Nat.pow 2 52 ∧ q ≠ -1074 then 1 else 2
  let (up, down) := match q - 2 with
    | .ofNat k => (Nat.pow 2 k, 1)
    | .negSucc k => (1, Nat.pow 2 (k + 1))
  { low := (4 * m - unit) * up
    centre := 4 * m * up
    high := (4 * m + 2) * up
    den := down
    closed := m % 2 = 0 }

/-- Whether the rational number `num / den` lies in the neighbourhood. -/
def Neighbourhood.contains (v : Neighbourhood) (num den : Nat) : Bool :=
  if v.closed then v.low * den ≤ num * v.den && num * v.den ≤ v.high * den
  else v.low * den < num * v.den && num * v.den < v.high * den

/-- The multiple of `10 ^ e` in the neighbourhood that is nearest to its centre, if it holds
one, as a multiplier of `10 ^ e`. -/
def Neighbourhood.onGrid? (v : Neighbourhood) (e : Int) : Option Nat :=
  let (up, down) := match e with
    | .ofNat k => (Nat.pow 10 k, 1)
    | .negSucc k => (1, Nat.pow 10 (k + 1))
  let below := v.centre * down / (v.den * up)
  let rest := v.centre * down % (v.den * up)
  let lower := 0 < below && v.contains (below * up) down
  let upper := v.contains ((below + 1) * up) down
  if lower && upper then some (if 2 * rest < v.den * up then below else below + 1)
  else if lower then some below
  else if upper then some (below + 1)
  else none

/-- The significand and the power of ten of the shortest decimal number that rounds to
`m * 2 ^ q`.  The search starts at a power of ten above the value and ends after at most twenty
grids, since seventeen digits tell any two binary numbers apart. -/
def shortest (m : Nat) (q : Int) : Nat × Int :=
  let v := neighbourhood m q
  let start := ((m.log2 + 1 + q) * 30103).fdiv 100000 + 2
  let grids := (List.range 21).map fun i => start - (i : Nat)
  (grids.findSome? fun e => (v.onGrid? e).map (·, e)).getD (m, q)

/-- The shortest text of a binary number. -/
def text (x : Float) : String :=
  let signed (s : Float.Model.UnpackedFloat.Sign) (cs : List Char) :=
    String.ofList (if s == .negative then '-' :: cs else cs)
  match x.toModel.unpack with
  | .notANumber => "NaN"
  | .infinity s => signed s "inf".toList
  | .zero s => signed s ['0']
  | .finite s m q _ =>
      let (n, e) := shortest m q
      signed s (Decimal.plain n e)

/-! ### The arithmetic -/

/-- The value of an elementary function. -/
def apply : Elementary → Float → Float
  | .exp, x => x.exp
  | .ln, x => x.log
  | .log10, x => x.log10
  | .sqrt, x => x.sqrt
  | .abs, x => x.abs
  | .sin, x => x.sin
  | .cos, x => x.cos
  | .tan, x => x.tan
  | .cot, x => 1.0 / x.tan
  | .arcsin, x => x.asin
  | .arccos, x => x.acos
  | .arctan, x => x.atan
  | .arccot, x => (1.0 / x).atan

/-- The binary number nearest to `n * 10 ^ p`. -/
def ofDecimal (n : Nat) : Int → Float
  | .ofNat k => Float.ofScientific n false k
  | .negSucc k => Float.ofScientific n true (k + 1)

instance : Number Float where
  ofInt := Float.ofInt
  ofDecimal := ofDecimal
  undefined := 0.0 / 0.0
  infinity := 1.0 / 0.0
  pi := 3.141592653589793
  euler := 2.718281828459045
  ln10 := 2.302585092994046
  pow := Float.pow
  apply := apply
  same x y := x == y
  less x y := x < y
  isFinite x := (reading x).isFinite
  nearest x := ((reading x).value?.map nearestInteger).getD 0
  reading := reading
  text := text

end Reckoner.Binary64
