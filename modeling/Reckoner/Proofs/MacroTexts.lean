/-
**Fractions and roots at every depth.**

Fractions and roots are brought to plain notation from the right end of a text to its left, one
macro after the other.  What comes out is nevertheless what a translation of the text by its
structure gives: arguments are translated by themselves, wherever they stand, and the macro around
them is replaced by brackets around what they have become.  The degree of a root is no exception,
although it is not in braces: the square bracket behind it is the first one in the text, since a
degree that has been translated has none.

Main definitions:

* `Reckoner.Canonical.MacroText` — texts with fractions, roots and groups in braces;
* `Reckoner.Canonical.MacroText.render` — such a text in LaTeX;
* `Reckoner.Canonical.MacroText.translate` — its translation by structure.

Main results:

* `Reckoner.Canonical.plainMacro?_nthRoot` — a root with its degree becomes a power;
* `Reckoner.Canonical.MacroText.plainMacros_render` — **fractions and roots are translated by
  structure**, whatever follows.
-/

import Reckoner.Proofs.Markup
import Reckoner.Proofs.Precedence

set_option autoImplicit false

namespace Reckoner.Canonical

open Text (after? cut?)

variable {s t : List Char} {c : Char}

/-! ### One macro -/

/-- A root with its degree becomes a power. -/
theorem plainMacro?_nthRoot (hs : ∀ c ∈ s, c ≠ ']') (ht : Braced t) (r : List Char) :
    plainMacro? ("\\sqrt".toList ++ '[' :: (s ++ ']' :: '\x7b' :: (t ++ '\x7d' :: r))) =
      some (parenthesized t ++ '^' :: parenthesized ("1/".toList ++ parenthesized s) ++ r) := by
  have hfrac : after? "\\frac".toList
      ("\\sqrt".toList ++ '[' :: (s ++ ']' :: '\x7b' :: (t ++ '\x7d' :: r))) = none :=
    after?_of_clash (by decide) _
  have hdegree : cut? ']' (s ++ ']' :: '\x7b' :: (t ++ '\x7d' :: r)) =
      some (s, '\x7b' :: (t ++ '\x7d' :: r)) := by
    rw [Notation.cut?_append hs]
    simp [cut?]
  rw [plainMacro?, hfrac, after?_append]
  simp only [plainRoot?, hdegree, ht.braceGroup?, Option.bind_eq_bind, Option.bind_some]
  rfl

theorem plainMacros_cons (hc : c ≠ '\\') (r : List Char) :
    plainMacros (c :: r) = c :: plainMacros r :=
  plainMacros_of_forall (t := [c]) (by simpa using hc) r

/-- What follows the name of a macro is plain when the macro is reached. -/
theorem plainMacros_command (hs : ∀ c ∈ s, c ≠ '\\') (r : List Char) :
    plainMacros ('\\' :: (s ++ r)) =
      (plainMacro? ('\\' :: (s ++ plainMacros r))).getD ('\\' :: (s ++ plainMacros r)) := by
  rw [plainMacros, plainMacros_of_forall hs]

/-! ### Texts -/

/-- A character that neither begins a macro nor encloses an argument. -/
def isOrdinary (c : Char) : Bool := !(['\\', '\x7b', '\x7d', '[', ']'].contains c)

theorem ne_of_isOrdinary (hc : isOrdinary c = true) :
    c ≠ '\\' ∧ (c ≠ '\x7b' ∧ c ≠ '\x7d') ∧ c ≠ ']' := by
  refine ⟨?_, ⟨?_, ?_⟩, ?_⟩ <;> rintro rfl <;> exact absurd hc (by decide)

/-- A text with fractions, roots and groups in braces. -/
inductive MacroText
  | nil
  | char (c : Char) (ordinary : isOrdinary c = true) (rest : MacroText)
  | group (inner rest : MacroText)
  | fraction (num den rest : MacroText)
  | root (radicand rest : MacroText)
  /-- A root of a degree in square brackets. -/
  | nthRoot (degree radicand rest : MacroText)

namespace MacroText

/-- The text in LaTeX. -/
def render : MacroText → List Char
  | nil => []
  | char c _ t => c :: t.render
  | group s t => '\x7b' :: (s.render ++ '\x7d' :: t.render)
  | fraction a b t => "\\frac".toList ++
      '\x7b' :: (a.render ++ '\x7d' :: '\x7b' :: (b.render ++ '\x7d' :: t.render))
  | root a t => "\\sqrt".toList ++ '\x7b' :: (a.render ++ '\x7d' :: t.render)
  | nthRoot n a t => "\\sqrt".toList ++
      '[' :: (n.render ++ ']' :: '\x7b' :: (a.render ++ '\x7d' :: t.render))

/-- The translation of the text by its structure.  Groups keep their braces. -/
def translate : MacroText → List Char
  | nil => []
  | char c _ t => c :: t.translate
  | group s t => '\x7b' :: (s.translate ++ '\x7d' :: t.translate)
  | fraction a b t => parenthesized a.translate ++ '/' :: parenthesized b.translate ++ t.translate
  | root a t => "sqrt".toList ++ parenthesized a.translate ++ t.translate
  | nthRoot n a t => parenthesized a.translate ++
      '^' :: parenthesized ("1/".toList ++ parenthesized n.translate) ++ t.translate

theorem braced_parenthesized (h : Braced s) : Braced (parenthesized s) := by
  have bracket {c : Char} (hc : c ≠ '\x7b' ∧ c ≠ '\x7d') : Braced [c] :=
    braced_of_forall (by simpa using hc)
  exact (bracket (c := '(') (by decide)).append (h.append (bracket (c := ')') (by decide)))

/-- The braces match in a translation. -/
theorem braced_translate (t : MacroText) : Braced t.translate := by
  have name {s : List Char} (hs : ∀ c ∈ s, c ≠ '\x7b' ∧ c ≠ '\x7d') : Braced s :=
    braced_of_forall hs
  induction t with
  | nil => exact name (by simp [translate])
  | char c hc t ih =>
      exact (name (s := [c]) (by simpa using (ne_of_isOrdinary hc).2.1)).append ih
  | group s t ihs iht =>
      have := ihs.group.append iht
      simpa [translate] using this
  | fraction a b t iha ihb iht =>
      have hover := (name (s := ['/']) (by simp)).append (braced_parenthesized ihb)
      exact ((braced_parenthesized iha).append hover).append iht
  | root a t iha iht =>
      exact ((name (by simp)).append (braced_parenthesized iha)).append iht
  | nthRoot n a t ihn iha iht =>
      have hdegree := (name (s := "1/".toList) (by simp)).append (braced_parenthesized ihn)
      have hpower := (name (s := ['^']) (by simp)).append (braced_parenthesized hdegree)
      exact ((braced_parenthesized iha).append hpower).append iht

/-- No square bracket is left in a translation. -/
theorem ne_of_mem_translate (t : MacroText) : ∀ c ∈ t.translate, c ≠ ']' := by
  induction t with
  | nil => simp [translate]
  | char c hc t ih =>
      have := (ne_of_isOrdinary hc).2.2
      simp_all [translate]
  | group | fraction | root | nthRoot =>
      simp_all [translate, parenthesized, or_imp]

/-- **Fractions and roots are translated by structure**, whatever follows. -/
theorem plainMacros_render (t : MacroText) (r : List Char) :
    plainMacros (t.render ++ r) = t.translate ++ plainMacros r := by
  have brace {c : Char} (hc : c ≠ '\\') (r : List Char) :
      plainMacros (c :: r) = c :: plainMacros r := plainMacros_cons hc r
  -- by induction on the text: the arguments are translated when the macro around them is reached
  induction t generalizing r with
  | nil => rfl
  | char c hc t ih =>
      rw [render, List.cons_append, brace (ne_of_isOrdinary hc).1, ih, translate, List.cons_append]
  | group s t ihs iht =>
      rw [render, List.cons_append, List.append_assoc, List.cons_append, brace (by decide), ihs,
        brace (by decide), iht]
      simp [translate]
  | fraction a b t iha ihb iht =>
      have hsource : (fraction a b t).render ++ r = '\\' :: ("frac".toList ++
          '\x7b' :: (a.render ++ '\x7d' :: '\x7b' :: (b.render ++ '\x7d' :: (t.render ++ r)))) := by
        simp [render]
      rw [hsource, plainMacros_command (by simp), brace (by decide), iha, brace (by decide),
        brace (by decide), ihb, brace (by decide), iht]
      change (plainMacro? ("\\frac".toList ++ _)).getD _ = _
      rw [plainMacro?_frac a.braced_translate b.braced_translate]
      simp [translate]
  | root a t iha iht =>
      have hsource : (root a t).render ++ r =
          '\\' :: ("sqrt".toList ++ '\x7b' :: (a.render ++ '\x7d' :: (t.render ++ r))) := by
        simp [render]
      rw [hsource, plainMacros_command (by simp), brace (by decide), iha, brace (by decide), iht]
      change (plainMacro? ("\\sqrt".toList ++ _)).getD _ = _
      rw [plainMacro?_sqrt a.braced_translate]
      simp [translate]
  | nthRoot n a t ihn iha iht =>
      have hsource : (nthRoot n a t).render ++ r = '\\' :: ("sqrt".toList ++
          '[' :: (n.render ++ ']' :: '\x7b' :: (a.render ++ '\x7d' :: (t.render ++ r)))) := by
        simp [render]
      rw [hsource, plainMacros_command (by simp), brace (by decide), ihn, brace (by decide),
        brace (by decide), iha, brace (by decide), iht]
      change (plainMacro? ("\\sqrt".toList ++ _)).getD _ = _
      rw [plainMacro?_nthRoot n.ne_of_mem_translate a.braced_translate]
      simp [translate]

end MacroText

end Reckoner.Canonical
