/-
**Round brackets.**

Main definitions:

* `Reckoner.Notation.nesting` — how a character changes the number of open brackets;
* `Reckoner.Notation.balanced` — every bracket of a text is matched;
* `Reckoner.Notation.closing?` — a text cut at the bracket that closes those open in front of it;
* `Reckoner.Notation.enclosed?` — the content of a text that is one pair of brackets.
-/

set_option autoImplicit false

namespace Reckoner.Notation

/-- How a character changes the number of open brackets. -/
def nesting (c : Char) : Int := if c = '(' then 1 else if c = ')' then -1 else 0

/-- Every bracket is matched, when `depth` of them are open in front of the text. -/
def balancedFrom : Nat → List Char → Bool
  | depth, [] => depth == 0
  | depth, c :: cs =>
      if c = '(' then balancedFrom (depth + 1) cs
      else if c = ')' then depth != 0 && balancedFrom (depth - 1) cs
      else balancedFrom depth cs

/-- Every bracket of a text is matched. -/
def balanced (cs : List Char) : Bool := balancedFrom 0 cs

/-- A text cut at the bracket that brings the number of open brackets from one to none, with
`depth` of them open in front of the text. -/
def closing? : Int → List Char → Option (List Char × List Char)
  | _, [] => none
  | depth, c :: cs =>
      if c = ')' ∧ depth = 1 then some ([], cs)
      else (closing? (depth + nesting c) cs).map fun p => (c :: p.1, p.2)

theorem closing?_eq {depth : Int} {cs l r : List Char} (h : closing? depth cs = some (l, r)) :
    cs = l ++ ')' :: r := by
  induction cs generalizing depth l with
  | nil => simp [closing?] at h
  | cons c cs ih =>
      simp only [closing?] at h
      split at h
      · simp_all
      · obtain ⟨p, hp, he⟩ := Option.map_eq_some_iff.1 h
        obtain ⟨rfl, rfl⟩ := Prod.mk.inj he
        simp [ih hp]

/-- The content of a text whose first bracket is closed by its last character. -/
def enclosed? : List Char → Option (List Char)
  | '(' :: cs =>
      match closing? 1 cs with
      | some (inner, []) => some inner
      | _ => none
  | _ => none

theorem enclosed?_eq {cs inner : List Char} (h : enclosed? cs = some inner) :
    cs = '(' :: (inner ++ [')']) := by
  unfold enclosed? at h
  split at h
  · split at h
    · rename_i hc
      obtain rfl := Option.some.inj h
      rw [closing?_eq hc]
    · simp at h
  · simp at h

end Reckoner.Notation
