/-
**Like terms.**

A sum is brought to a list of terms, each a number times a monomial.  A monomial is a product of
*atoms* — variables and factors that are taken as they are, such as `sin(x)` — with positive
exponents.  Atoms are told apart by their text, so that terms are alike when the texts of their
atoms and the exponents agree.

Main definitions:

* `Reckoner.Monomial` — exponents by the text of the atom, in increasing order of text;
* `Reckoner.Expr.factors`, `Reckoner.Expr.terms` — the factors of a product and the terms of a
  sum, with numbers multiplied out over sums;
* `Reckoner.Collection` — a sum of terms in which like terms are merged;
* `Reckoner.Expr.collected?` — a sum rebuilt from its collection, by descending degree.
-/

import Reckoner.Expr.Written

set_option autoImplicit false

namespace Reckoner

/-! ### Monomials -/

/-- Exponents by the text of the atom, in increasing order of text. -/
abbrev Monomial := List (String × Int)

namespace Monomial

/-- The product with the power `n` of the atom `key`. -/
def times (key : String) (n : Int) : Monomial → Monomial
  | [] => [(key, n)]
  | (k, m) :: rest =>
      if key = k then (k, m + n) :: rest
      else if key < k then (key, n) :: (k, m) :: rest
      else (k, m) :: times key n rest

/-- The total degree. -/
def degree (m : Monomial) : Int := m.foldr (fun p n => p.2 + n) 0

end Monomial

namespace Expr

variable {κ : Type} [Number κ]

open Arithmetic (isZero isOne isNegative integer? one)

/-! ### Factors and terms -/

/-- The factors of a product, from left to right. -/
def factors : Expr κ → List (Expr κ)
  | .mul a b => a.factors ++ b.factors
  | e => [e]

/-- The product with a number; the number one is left out. -/
def scaled (c : κ) (e : Expr κ) : Expr κ := if isOne c then e else .mul (.const c) e

/-- The terms of `c` times a sum.  A number times a sum is multiplied out. -/
def terms (c : κ) : Expr κ → List (Expr κ)
  | .add a b => terms c a ++ terms c b
  | .sub a b => terms c a ++ terms (-c) b
  | .const d => [.const (d * c)]
  | .mul a b =>
      match a, b with
      | .const d, b => if b.isSum then terms (c * d) b else [scaled c (.mul (.const d) b)]
      | a, .const d => if a.isSum then terms (c * d) a else [scaled c (.mul a (.const d))]
      | a, b => [scaled c (.mul a b)]
  | e => [scaled c e]

/-- The largest exponent of an atom, one less than `2 ^ 31`.  A larger one is cut down to it. -/
def maxExponent : Int := 2147483647

/-- A factor as a power of an atom.  A positive integer power of anything but a number is a power
of its base, and every other factor is an atom by itself. -/
def atomPower (e : Expr κ) : Expr κ × Int :=
  match e with
  | .pow base (.const c) =>
      match integer? c with
      | some n => if 0 < n && !base.isConst then (base, min n maxExponent) else (e, 1)
      | none => (e, 1)
  | e => (e, 1)

end Expr

/-! ### Collections -/

/-- A sum of terms.  Every atom is remembered under its text, and there is one coefficient for
every monomial, in the order in which the monomials came first. -/
structure Collection (κ : Type) where
  /-- The atoms met so far, each under its text. -/
  atoms : List (String × Expr κ)
  /-- The monomials and their coefficients. -/
  sums : List (Monomial × κ)

namespace Collection

variable {κ : Type} [Number κ]

open Arithmetic (isZero isOne isNegative one)

/-- The empty sum. -/
def empty : Collection κ := ⟨[], []⟩

/-- The atom of a text. -/
def atom (s : Collection κ) (key : String) : Expr κ := (s.atoms.lookup key).getD (.var key)

/-- Remembers an atom, unless another one has its text. -/
def remember (s : Collection κ) (key : String) (atom : Expr κ) : Collection κ :=
  if (s.atoms.lookup key).isSome then s else { s with atoms := s.atoms ++ [(key, atom)] }

/-- Adds a coefficient to that of a monomial. -/
def accumulate (m : Monomial) (c : κ) : List (Monomial × κ) → List (Monomial × κ)
  | [] => [(m, c)]
  | (k, d) :: rest => if k = m then (k, d + c) :: rest else (k, d) :: accumulate m c rest

/-- The number, the monomial and the atoms of a product, factor by factor. -/
def addFactors (s : Collection κ) (c : κ) (m : Monomial) :
    List (Expr κ) → Collection κ × κ × Monomial
  | [] => (s, c, m)
  | .const d :: rest => addFactors s (c * d) m rest
  | e :: rest =>
      let (atom, n) := e.atomPower
      addFactors (s.remember atom.text atom) c (m.times atom.text n) rest

/-- The sum with one more term. -/
def addTerm (s : Collection κ) (e : Expr κ) : Collection κ :=
  let (s, c, m) := addFactors s one [] e.factors
  { s with sums := accumulate m c s.sums }

/-- The sum of a list of terms. -/
def ofTerms (es : List (Expr κ)) : Collection κ := es.foldl addTerm empty

/-- The terms with a coefficient other than zero, by descending degree.  Terms of one degree stay
in their order. -/
def ordered (s : Collection κ) : List (Monomial × κ) :=
  (s.sums.filter fun t => !isZero t.2).mergeSort fun t u => u.1.degree ≤ t.1.degree

/-- The product of a non-empty list of factors, bracketed to the left, and one otherwise. -/
def product : List (Expr κ) → Expr κ
  | [] => .const one
  | e :: es => es.foldl .mul e

/-- A power of an atom. -/
def powerOf (s : Collection κ) (key : String) (n : Int) : Expr κ :=
  if n = 1 then s.atom key else .pow (s.atom key) (.ofInt n)

/-- The term of a monomial and a coefficient.  The coefficient one is left out. -/
def term (s : Collection κ) (m : Monomial) (c : κ) : Expr κ :=
  if m.isEmpty then .const c
  else
    let powers := m.map fun p => s.powerOf p.1 p.2
    product (if isOne c then powers else .const c :: powers)

/-- One more term on the right of a sum, as a subtraction if its coefficient is negative. -/
def appendTerm (s : Collection κ) (sum : Expr κ) (t : Monomial × κ) : Expr κ :=
  if isNegative t.2 then .sub sum (s.term t.1 (-t.2)) else .add sum (s.term t.1 t.2)

/-- The sum as an expression. -/
def toExpr (s : Collection κ) : Expr κ :=
  match s.ordered with
  | [] => .ofInt 0
  | t :: ts => ts.foldl s.appendTerm (s.term t.1 t.2)

end Collection

/-- An expression with its like terms collected, if it has two terms at least. -/
def Expr.collected? {κ : Type} [Number κ] (e : Expr κ) : Option (Expr κ) :=
  let terms := e.terms Arithmetic.one
  if terms.length < 2 then none else some (Collection.ofTerms terms).toExpr

end Reckoner
