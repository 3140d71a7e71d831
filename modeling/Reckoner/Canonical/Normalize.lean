/-
**Canonical text.**

A line of LaTeX, as it comes from a field for mathematical input, is brought to plain notation.
The steps rely on their order: names in upright letters, fractions and roots, absolute values and
the other macros, the braces that are left, and last the signs of implied products.  A macro that
none of the steps knows stays in the text.

Main definitions:

* `Reckoner.Canonical.normalizeChars`, `Reckoner.normalize` — the canonical text of an input.
-/

import Reckoner.Canonical.Fractions
import Reckoner.Canonical.Macros
import Reckoner.Canonical.Products

set_option autoImplicit false

namespace Reckoner

namespace Canonical

/-- A text without braces. -/
def dropBraces (cs : List Char) : List Char := cs.filter fun c => c != '\x7b' && c != '\x7d'

/-- The canonical text of an input. -/
def normalizeChars (cs : List Char) : List Char :=
  insertProducts (dropBraces (replaceMacros (replaceAbsolutes
    (plainMacros (dropOperatorNames cs)))))

end Canonical

/-- The canonical text of an input. -/
def normalize (raw : String) : String := String.ofList (Canonical.normalizeChars raw.toList)

end Reckoner
