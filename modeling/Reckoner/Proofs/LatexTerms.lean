/-
**LaTeX input means what it says.**

Integers, letters and `\pi` are put together in LaTeX by sums, differences, products with a dot,
fractions, square roots, functions and brackets.  Such a term is written with brackets around a
sum that is a factor or is subtracted, and around a product that is the factor on the right.  The
text is read with every value of the expression that the term stands for.

No step on the way may put two tokens together, add a product or move an operand.  The macros of
functions and constants lose their backslash and keep their letters, so that what matters is what
stands next to them: it is a bracket, a brace, an operator or the blank behind a dot.

Main definitions:

* `Reckoner.LatexTerm` — the terms;
* `Reckoner.LatexTerm.render` — a term in LaTeX;
* `Reckoner.LatexTerm.tree` — the expression that a term stands for.

Main results:

* `Reckoner.Expr.ReadsAs.root`, `Reckoner.Expr.ReadsAs.call` — roots and functions become calls;
* `Reckoner.LatexTerm.readsAs_render` — a term is read as its tree, clause by clause;
* `Reckoner.LatexTerm.parse_normalize_render` — **a term is read with every value of its tree**.
-/

import Reckoner.Proofs.LatexReading

set_option autoImplicit false

namespace Reckoner

open Notation (Level Spells blanks_nil)

/-! ### Calls -/

namespace Expr

open Canonical (Writes Explicit)

variable {κ : Type} [Number κ] {K : Type} [Field K] {I : Functions K}
variable {l : Level} {s : String} {t : List Char} {a e : Expr κ} {f : Elementary}

/-- No product is implied in a call: the letter in front of a bracket does not close one. -/
theorem explicit_call (f : Elementary) (ht : Explicit t) :
    Explicit (f.name.toList ++ '(' :: (t ++ [')'])) := by
  have hname : Explicit f.name.toList ∧
      (f.name.toList.getLast?.all fun c => Canonical.apart c '(') = true := by
    cases f <;> exact ⟨by unfold Explicit; decide, by decide⟩
  refine List.isChain_append.2 ⟨hname.1, ht.group, ?_⟩
  intro c hc d hd
  obtain rfl := Option.some.inj hd
  exact (Option.all_eq_true _ _).1 hname.2 c hc

/-- A function of what is read. -/
theorem Denotes.call (f : Elementary) (ha : Denotes I .sum t a) :
    Denotes I .atom (f.name.toList ++ '(' :: (t ++ [')'])) (.apply f a) := by
  obtain ⟨ht, a', ha', hra⟩ := ha
  have h := Spells.call (Elementary.ofName?_name f) blanks_nil blanks_nil blanks_nil ha'
  exact ⟨explicit_call f ht, _, by simpa using h, hra.apply f⟩

/-- A square root is the call of the function. -/
theorem ReadsAs.root (ha : ReadsAs I .sum s a) :
    ReadsAs I .atom ("\\sqrt" ++ braced s) (.apply .sqrt a) := by
  obtain ⟨t, hw, hd⟩ := ha
  exact ⟨_, by simpa [braced] using hw.root, by simpa [Elementary.name] using hd.call .sqrt⟩

/-- The command of a function and its argument in brackets are a call. -/
theorem ReadsAs.call (hf : ("\\" ++ f.name, f.name) ∈ Canonical.macroTable)
    (ha : ReadsAs I .sum s a) :
    ReadsAs I .atom ("\\" ++ f.name ++ Expr.bracketed s) (.apply f a) := by
  obtain ⟨t, hw, hd⟩ := ha
  have hopen := Writes.command (m := ("\\left(", "(")) (by decide)
  have hclose := Writes.command (m := ("\\right)", ")")) (by decide)
  have h := (Writes.command hf).append (hopen.append (hw.append hclose))
  exact ⟨_, by simpa [Expr.bracketed] using h, by simpa using hd.call f⟩

/-- **What marked-up text is read as has every value of the expression.** -/
theorem ReadsAs.parse_normalize (h : ReadsAs I l s e) :
    ∃ e', Expr.parse (normalize s) = .ok e' ∧ Refines I e e' := by
  obtain ⟨t, hwrites, hexplicit, e', hspells, hrefines⟩ := h
  refine ⟨e', ?_, hrefines⟩
  rw [Expr.parse, normalize, hwrites.normalizeChars, hexplicit.insertProducts,
    String.toList_ofList]
  exact hspells.parse_eq_ok

end Expr

/-! ### Terms -/

/-- The functions with a command of their own. -/
inductive LatexFunction
  | sin | cos | ln

/-- A function with a command of its own. -/
def LatexFunction.elementary : LatexFunction → Elementary
  | .sin => .sin
  | .cos => .cos
  | .ln => .ln

theorem LatexFunction.mem_macroTable (f : LatexFunction) :
    ("\\" ++ f.elementary.name, f.elementary.name) ∈ Canonical.macroTable := by
  cases f <;> decide

/-- Terms in LaTeX. -/
inductive LatexTerm
  /-- A number without a sign. -/
  | integer (n : ℕ)
  /-- A letter as the steps of rewriting know it, one of the Latin alphabet. -/
  | letter (c : Char) (isLetter : c.isAlpha = true)
  | pi
  | bracket (t : LatexTerm)
  | sum (a b : LatexTerm)
  | difference (a b : LatexTerm)
  | product (a b : LatexTerm)
  | fraction (a b : LatexTerm)
  | root (a : LatexTerm)
  | call (f : LatexFunction) (a : LatexTerm)

namespace LatexTerm

open Expr (bracketed braced ReadsAs)

/-- A sum or a difference. -/
def isSum : LatexTerm → Bool
  | .sum _ _ | .difference _ _ => true
  | _ => false

def isProduct : LatexTerm → Bool
  | .product _ _ => true
  | _ => false

/-- LaTeX in brackets where they are needed. -/
def bracketedIf (needed : Bool) (s : String) : String := if needed then bracketed s else s

/-- A term in LaTeX. -/
def render : LatexTerm → String
  | .integer n => toString n
  | .letter c _ => String.singleton c
  | .pi => "\\pi"
  | .bracket t => bracketed t.render
  | .sum a b => a.render ++ "+" ++ b.render
  | .difference a b => a.render ++ "-" ++ bracketedIf b.isSum b.render
  | .product a b =>
      bracketedIf a.isSum a.render ++ "\\cdot " ++ bracketedIf (b.isSum || b.isProduct) b.render
  | .fraction a b => "\\frac" ++ braced a.render ++ braced b.render
  | .root a => "\\sqrt" ++ braced a.render
  | .call f a => "\\" ++ f.elementary.name ++ bracketed a.render

/-- The expression that a term stands for. -/
def tree {κ : Type} [Number κ] : LatexTerm → Expr κ
  | .integer n => .ofInt n
  | .letter c _ => .var (String.singleton c)
  | .pi => .var "pi"
  | .bracket t => t.tree
  | .sum a b => .add a.tree b.tree
  | .difference a b => .sub a.tree b.tree
  | .product a b => .mul a.tree b.tree
  | .fraction a b => .div a.tree b.tree
  | .root a => .apply .sqrt a.tree
  | .call f a => .apply f.elementary a.tree

/-! ### Reading -/

/-- The level from which a term is read. -/
def level : LatexTerm → Level
  | .sum _ _ | .difference _ _ => .sum
  | .product _ _ | .fraction _ _ => .product
  | _ => .atom

variable {κ : Type} [Number κ] {K : Type} [Field K] {I : Functions K}

/-- With brackets around it where it is a sum, a term is read as a product. -/
theorem readsAs_bracketedIf {a : LatexTerm} {e : Expr κ} {needed : Bool} (hsum : a.isSum → needed)
    (h : ReadsAs I a.level a.render e) : ReadsAs I .product (bracketedIf needed a.render) e := by
  cases needed with
  | true => exact h.toSum.bracketed.loosen (by decide)
  | false =>
      refine h.loosen ?_
      cases a with
      | sum | difference => simp [isSum] at hsum
      | _ => simp [level, Level.rank]

variable [ExactNumber κ]

theorem readsAs_natural (n : ℕ) : ReadsAs I .atom (toString n) (.ofInt n : Expr κ) := by
  obtain ⟨d, hd, hspells⟩ := Expr.spells_digits (κ := κ) n
  have hdigit : ∀ c ∈ Decimal.digits n, c.isDigit = true :=
    fun c hc => Decimal.isDigit_of_mem_digits hc
  have hplain : ∀ c ∈ Decimal.digits n, c ≠ '\\' ∧ c ≠ '\x7b' ∧ c ≠ '\x7d' := by
    intro c hc
    have := hdigit c hc
    refine ⟨?_, ?_, ?_⟩ <;> rintro rfl <;> simp at this
  have htext : (toString n).toList = Decimal.digits n := String.toList_ofList
  rw [ReadsAs, htext]
  refine ⟨_, .text hplain, Canonical.explicit_of_digits hdigit, .const d, hspells, ?_⟩
  exact Expr.refines_const (by simp [ExactNumber.value_ofInt, hd])

/-- **A term is read as its tree**, clause by clause. -/
theorem readsAs_render (t : LatexTerm) : ReadsAs I t.level t.render (t.tree : Expr κ) := by
  induction t with
  | integer n => exact readsAs_natural n
  | letter c hc =>
      have h := Expr.readsAs_letter (κ := κ) (I := I) (x := String.singleton c) hc (by simp)
      rwa [Expr.variableLatex_letter hc (by simp)] at h
  | pi =>
      have hpi := Canonical.Writes.command (m := ("\\pi", "pi")) (by decide)
      refine ⟨_, hpi, by unfold Canonical.Explicit; decide, .var "pi", .name ?_, .refl _⟩
      decide
  | bracket t ih => exact ih.toSum.bracketed
  | sum a b iha ihb => exact iha.toSum.sum ihb.toSum
  | difference a b iha ihb => exact iha.toSum.difference (readsAs_bracketedIf id ihb)
  | product a b iha ihb =>
      exact (readsAs_bracketedIf id iha).product (readsAs_bracketedIf (by simp +contextual) ihb)
  | fraction a b iha ihb => exact iha.toSum.fraction ihb.toSum
  | root a ih => exact ih.toSum.root
  | call f a ih => exact ih.toSum.call f.mem_macroTable

/-- **A term is read with every value of its tree**, whatever the functions are. -/
theorem parse_normalize_render (t : LatexTerm) :
    ∃ e : Expr κ, Expr.parse (normalize t.render) = .ok e ∧ Expr.Refines I t.tree e :=
  (readsAs_render t).parse_normalize

/-- The factor `1 / x` on the right of a product and the sum that is subtracted keep their places. -/
theorem parse_normalize_render_nested :
    let t : LatexTerm := .difference
      (.product (.integer 2) (.fraction (.integer 1) (.letter 'x' (by decide))))
      (.sum (.call .sin (.product .pi (.letter 'x' (by decide)))) (.root (.integer 4)))
    t.render = "2\\cdot \\frac\x7b1\x7d\x7bx\x7d-\\left(\\sin\\left(\\pi\\cdot x\\right)" ++
        "+\\sqrt\x7b4\x7d\\right)" ∧
      ∃ e : Expr Ratio, Expr.parse (normalize t.render) = .ok e ∧
        Expr.Refines Ratio.functions t.tree e := by
  intro t
  exact ⟨by decide, parse_normalize_render t⟩

end LatexTerm

end Reckoner
