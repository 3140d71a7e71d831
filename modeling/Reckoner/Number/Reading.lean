/-
**What a number says, exactly.**

A number of the calculator is either no number at all, an infinity of one of the two signs, or
an exact rational value.  Everything that is printed with a fixed count of places, and every
decision whether a number counts as an integer, is taken on this exact value and not on the
arithmetic the number came from.

Main definitions:

* `Reckoner.Reading` — the exact content of a number;
* `Reckoner.Reading.same`, `Reckoner.Reading.less` — comparison, in which an undefined number is
  related to nothing, itself included;
* `Reckoner.nearestInteger` — rounding of a rational, halves away from zero.
-/

set_option autoImplicit false

namespace Reckoner

/-- The exact content of a number. -/
inductive Reading
  /-- Not a number. -/
  | undefined
  /-- An infinity. -/
  | infinite (negative : Bool)
  /-- A rational value. -/
  | finite (value : Rat)
deriving DecidableEq

/-- The integer nearest to `q`; a half goes away from zero. -/
def nearestInteger (q : Rat) : Int :=
  if q < 0 then -((2 * -q + 1) / 2).floor else ((2 * q + 1) / 2).floor

namespace Reading

/-- Numerical equality.  An undefined number equals nothing. -/
def same : Reading → Reading → Bool
  | .infinite s, .infinite t => s == t
  | .finite p, .finite q => p == q
  | _, _ => false

/-- Strict order.  An undefined number is in no order. -/
def less : Reading → Reading → Bool
  | .undefined, _ | _, .undefined => false
  | .infinite s, .infinite t => s && !t
  | .infinite s, .finite _ => s
  | .finite _, .infinite t => !t
  | .finite p, .finite q => p < q

/-- The rational value of a finite number. -/
def value? : Reading → Option Rat
  | .finite q => some q
  | _ => none

/-- Neither undefined nor infinite. -/
def isFinite (r : Reading) : Bool := r.value?.isSome

@[simp] theorem value?_finite (q : Rat) : (finite q).value? = some q := rfl

@[simp] theorem isFinite_finite (q : Rat) : (finite q).isFinite = true := rfl

end Reading

end Reckoner
