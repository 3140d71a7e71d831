/-
**Macros without arguments.**

Names in upright letters lose their command, absolute values become calls of a function, and the
macros of the table are replaced by what they mean in plain notation, one after the other.

Main definitions:

* `Reckoner.Canonical.dropOperatorNames` — names in upright letters;
* `Reckoner.Canonical.replaceAbsolutes` — absolute values, each from a left bar to the next right
  one on its line;
* `Reckoner.Canonical.macroTable`, `Reckoner.Canonical.replaceMacros` — the other macros.
-/

import Reckoner.Text.Scan

set_option autoImplicit false

namespace Reckoner.Canonical

open Text (after? replaceWith replace)

/-! ### Names -/

/-- An operator name at the front of a text: the name, and the length of the macro. -/
def operatorName? (cs : List Char) : Option (List Char × Nat) := do
  let rest ← after? "\\operatorname".toList cs
  let rest := match rest with
    | '*' :: rest => rest
    | rest => rest
  let rest ← after? ['\x7b'] rest
  let name := rest.takeWhile fun c => c != '\x7b' && c != '\x7d'
  let rest ← after? ['\x7d'] (rest.drop name.length)
  return (name, cs.length - rest.length)

/-- A text in which the command for upright names is dropped. -/
def dropOperatorNames (cs : List Char) : List Char := replaceWith operatorName? 0 cs

/-! ### Absolute values -/

/-- The part of a line in front of the next right bar. -/
def beforeRightBar? : List Char → Option (List Char)
  | [] => none
  | c :: cs =>
      if (after? "\\right|".toList (c :: cs)).isSome then some []
      else if c = '\n' then none
      else (beforeRightBar? cs).map (c :: ·)

/-- An absolute value at the front of a text: the call of the function, and the length of the
macro. -/
def absolute? (cs : List Char) : Option (List Char × Nat) := do
  let rest ← after? "\\left|".toList cs
  let inner ← beforeRightBar? rest
  return ("abs(".toList ++ inner ++ [')'], "\\left|\\right|".length + inner.length)

/-- A text in which absolute values are calls of a function. -/
def replaceAbsolutes (cs : List Char) : List Char := replaceWith absolute? 0 cs

/-! ### The table -/

/-- The macros with a fixed meaning, in the order in which they are replaced.  A macro comes
before those that it begins with. -/
def macroTable : List (String × String) :=
  [("\\left(", "("), ("\\right)", ")"), ("\\left[", "("), ("\\right]", ")"),
   ("\\cdot", "*"), ("\\times", "*"), ("\\div", "/"),
   ("\\pi", "pi"), ("\\hbar", "hbar"), ("\\infty", "inf"), ("\\int", "integrate"),
   ("\\rightarrow", "->"), ("\\to", "->"),
   ("\\arcsin", "arcsin"), ("\\arccos", "arccos"), ("\\arctan", "arctan"),
   ("\\sin", "sin"), ("\\cos", "cos"), ("\\tan", "tan"), ("\\cot", "cot"),
   ("\\ln", "ln"), ("\\log", "log"), ("\\exp", "exp"),
   ("\\quad", ""), ("\\,", ""), ("\\;", ""), ("\\!", "")]

/-- A text in which the macros of the table are replaced, one after the other. -/
def replaceMacros (cs : List Char) : List Char :=
  macroTable.foldl (fun cs m => replace m.1.toList m.2.toList cs) cs

end Reckoner.Canonical
