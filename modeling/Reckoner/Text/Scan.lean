/-
**Cutting and replacing.**

Texts are lists of characters.  Positions in them are counted in bytes of their encoding, so that
the length of a piece is the sum of the lengths of its characters.

Main definitions:

* `Reckoner.Text.byteSize`, `Reckoner.Text.dropBytes` — lengths and positions in bytes;
* `Reckoner.Text.cut?` — the two sides of the first occurrence of a character;
* `Reckoner.Text.cutLast?` — the two sides of its last occurrence;
* `Reckoner.Text.after?` — what follows a given beginning;
* `Reckoner.Text.replaceWith`, `Reckoner.Text.replace` — replacement of all occurrences, from left
  to right and without overlap.
-/

set_option autoImplicit false

namespace Reckoner.Text

/-! ### Positions -/

/-- The length of a text in bytes. -/
def byteSize (cs : List Char) : Nat := cs.foldr (fun c n => c.utf8Size + n) 0

/-- A text from a position on. -/
def dropBytes : Nat → List Char → List Char
  | 0, cs => cs
  | _, [] => []
  | n, c :: cs => dropBytes (n - c.utf8Size) cs

/-! ### Cutting -/

/-- The two sides of the first occurrence of `c`. -/
def cut? (c : Char) : List Char → Option (List Char × List Char)
  | [] => none
  | d :: cs => if d = c then some ([], cs) else (cut? c cs).map fun p => (d :: p.1, p.2)

/-- The two sides of the last occurrence of `c`. -/
def cutLast? (c : Char) : List Char → Option (List Char × List Char)
  | [] => none
  | d :: cs =>
      match cutLast? c cs with
      | some p => some (d :: p.1, p.2)
      | none => if d = c then some ([], cs) else none

theorem cut?_eq {c : Char} {cs l r : List Char} (h : cut? c cs = some (l, r)) :
    cs = l ++ c :: r := by
  induction cs generalizing l with
  | nil => simp [cut?] at h
  | cons d cs ih =>
      simp only [cut?] at h
      split at h
      · simp_all
      · obtain ⟨p, hp, he⟩ := Option.map_eq_some_iff.1 h
        obtain ⟨rfl, rfl⟩ := Prod.mk.inj he
        simp [ih hp]

theorem cutLast?_eq {c : Char} {cs l r : List Char} (h : cutLast? c cs = some (l, r)) :
    cs = l ++ c :: r := by
  induction cs generalizing l with
  | nil => simp [cutLast?] at h
  | cons d cs ih =>
      simp only [cutLast?] at h
      split at h
      · rename_i p hp
        obtain ⟨rfl, rfl⟩ := Prod.mk.inj (Option.some.inj h)
        simp [ih hp]
      · split at h <;> simp_all

/-- What follows the beginning `start` of a text, if it begins so. -/
def after? : (start cs : List Char) → Option (List Char)
  | [], cs => some cs
  | s :: start, c :: cs => if s = c then after? start cs else none
  | _ :: _, [] => none

theorem after?_eq {start cs rest : List Char} (h : after? start cs = some rest) :
    cs = start ++ rest := by
  induction start generalizing cs with
  | nil => simpa [after?] using h
  | cons s start ih =>
      cases cs with
      | nil => simp [after?] at h
      | cons c cs =>
          simp only [after?] at h
          split at h
          · simp_all
            exact ih h
          · simp at h

/-! ### Replacing -/

/-- Replaces what `find` recognises at the front of a text, from left to right.  `find` gives the
replacement and the positive number of characters it replaces; the first argument counts the
characters still to be left out. -/
def replaceWith (find : List Char → Option (List Char × Nat)) : Nat → List Char → List Char
  | _, [] => []
  | skip + 1, _ :: cs => replaceWith find skip cs
  | 0, c :: cs =>
      match find (c :: cs) with
      | some (new, n) => new ++ replaceWith find (n - 1) cs
      | none => c :: replaceWith find 0 cs

/-- Replaces every occurrence of the non-empty text `old` by `new`. -/
def replace (old new : List Char) (cs : List Char) : List Char :=
  replaceWith (fun cs => (after? old cs).map fun _ => (new, old.length)) 0 cs

end Reckoner.Text
