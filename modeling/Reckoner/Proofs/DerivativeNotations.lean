/-
**The notations of a derivative.**

A derivative is written with a fraction of differentials, with their quotient, or with a keyword and
the variable behind a comma.  The fraction becomes a quotient of two brackets, with the sign of an
implied product between it and the bracket of the expression; the quotient stays as it is; and the
keyword stays, with the comma.  In all three surroundings the expression stands between a bracket
and a bracket or a comma, and no implied product is found across these, so that it is brought to
canonical text as it is by itself.

Main definitions:

* `Reckoner.Request.fractionNotation`, `Reckoner.Request.quotientNotation`,
  `Reckoner.Request.keywordNotation` — the three notations.

Main results:

* `Reckoner.Canonical.normalizeChars_fractionNotation`, … — the canonical text of each notation;
* `Reckoner.Request.classify_differentials` — **differentials in front of a bracket ask for a
  derivative**, with or without brackets around them;
* `Reckoner.Request.classify_derivative_notations` — **the three notations are one request**.
-/

import Reckoner.Proofs.FractionOperands
import Reckoner.Proofs.ImpliedProducts
import Reckoner.Proofs.RequestTexts

set_option autoImplicit false

namespace Reckoner

/-! ### The notations -/

namespace Request

open Canonical (inBraces parenthesized)

/-- The derivative of `t` by `v` with a fraction of differentials. -/
def fractionNotation (v : Char) (t : List Char) : List Char :=
  "\\frac".toList ++ inBraces ['d'] ++ inBraces ['d', v] ++
    ("\\left(".toList ++ (t ++ "\\right)".toList))

/-- The derivative of `t` by `v` with a quotient of differentials. -/
def quotientNotation (v : Char) (t : List Char) : List Char :=
  "d/d".toList ++ [v] ++ parenthesized t

/-- The derivative of `t` by `v` with a keyword. -/
def keywordNotation (v : Char) (t : List Char) : List Char :=
  call "derivative" (t ++ ',' :: ([' '] ++ [v]))

end Request

/-! ### Canonical texts -/

namespace Canonical

open Request (fractionNotation quotientNotation keywordNotation)
open Text (isLatinLetter)

variable {v : Char} {t : List Char}

theorem unmarked_singleton (hv : isLatinLetter v = true) : Unmarked [v] := by
  have hcode := Text.toNat_of_isAlpha hv
  intro c hc
  obtain rfl := List.mem_singleton.1 hc
  refine ⟨?_, ?_, ?_⟩ <;> rintro rfl <;> exact absurd hcode (by decide)

/-- Behind a letter no product is implied. -/
theorem apart_of_isLatinLetter (hv : isLatinLetter v = true) (c : Char) : apart v c = true := by
  obtain ⟨hdigit, hclose⟩ := not_digit_or_close_of_isLatinLetter hv
  exact apart_of_left hdigit (by simpa using hclose) c

/-- A group behind a closing bracket is a factor. -/
theorem insertProducts_close_group (t : List Char) :
    insertProducts (')' :: parenthesized t) = ')' :: '*' :: parenthesized (insertProducts t) := by
  have himplied : impliesProduct ')' (parenthesized t) = true := by
    simp [impliesProduct, closeThenOpen, parenthesized]
  have hgroup := insertProducts_group (r := []) (by simp) t
  rw [List.append_nil] at hgroup
  rw [insertProducts_eq, insertTimes, if_pos himplied, ← insertProducts_eq, hgroup]
  simp [insertProducts, insertTimes]

/-- The fraction becomes a quotient of brackets in front of a factor. -/
theorem normalizeChars_fractionNotation (hv : isLatinLetter v = true) (ht : Unmarked t) :
    normalizeChars (fractionNotation v t) =
      "(d)/(d".toList ++ [v] ++ (')' :: '*' :: parenthesized (normalizeChars t)) := by
  have hd : Unmarked ['d'] := by decide
  have hfraction := hd.writes.fraction (hd.append (unmarked_singleton hv)).writes
  have hopen : Writes "\\left(".toList "(".toList := .command (m := ("\\left(", "(")) (by decide)
  have hclose : Writes "\\right)".toList ")".toList :=
    .command (m := ("\\right)", ")")) (by decide)
  have hwrites := hfraction.append (hopen.append (ht.writes.append hclose))
  have htext : fractionNotation v t =
      "\\frac".toList ++ '\x7b' :: (['d'] ++ '\x7d' :: '\x7b' :: (['d'] ++ [v] ++ ['\x7d'])) ++
        ("\\left(".toList ++ (t ++ "\\right)".toList)) := by
    -- unfolded by hand: the equation of a definition that begins with a text evaluates the text
    show "\\frac".toList ++ inBraces ['d'] ++ inBraces ['d', v] ++ _ = _
    simp [inBraces]
  have hplain : '(' :: (['d'] ++ [')'] ++ '/' :: '(' :: (['d'] ++ [v] ++ [')'])) ++
      ("(".toList ++ (t ++ ")".toList)) =
        "(d)/(d".toList ++ [v] ++ (')' :: parenthesized t) := by
    simp [parenthesized]
  have hexplicit : Explicit ("(d)/(d".toList ++ [v] ++ [')']) := by
    have hletter : ∀ c, apart 'd' c = true := apart_of_isLatinLetter (by decide)
    have hfront : apart '(' 'd' = true ∧ apart ')' '/' = true ∧ apart '/' '(' = true := by decide
    simp [Explicit, hletter, apart_of_isLatinLetter hv, hfront]
  rw [htext, hwrites.normalizeChars, hplain, insertProducts_append (by exact hexplicit),
    insertProducts_close_group, ht.normalizeChars]

/-- The quotient stays in front of the bracket. -/
theorem normalizeChars_quotientNotation (hv : isLatinLetter v = true) (ht : Unmarked t) :
    normalizeChars (quotientNotation v t) = quotientNotation v (normalizeChars t) := by
  have hfront : Unmarked ("d/d".toList ++ [v]) :=
    Unmarked.append (by decide) (unmarked_singleton hv)
  have hexplicit : Explicit ("d/d".toList ++ [v] ++ ['(']) := by
    have hletter : ∀ c, apart 'd' c = true := apart_of_isLatinLetter (by decide)
    have hslash : apart '/' 'd' = true := by decide
    simp [Explicit, hletter, apart_of_isLatinLetter hv, hslash]
  have hgroup := insertProducts_group (r := []) (by simp) t
  rw [List.append_nil] at hgroup
  rw [quotientNotation, (hfront.append ht.parenthesized).normalizeChars,
    insertProducts_append (by exact hexplicit), hgroup, ht.normalizeChars]
  simp [quotientNotation, insertProducts, insertTimes]

/-- The keyword and the variable stay around the expression. -/
theorem normalizeChars_keywordNotation (hv : isLatinLetter v = true) (ht : Unmarked t) :
    normalizeChars (keywordNotation v t) = keywordNotation v (normalizeChars t) := by
  have hfront : Unmarked "derivative(".toList := by decide
  have hbehind : Unmarked ([',', ' '] ++ [v] ++ [')']) :=
    (Unmarked.append (by decide) (unmarked_singleton hv)).append (by decide)
  have htext (t : List Char) : keywordNotation v t =
      "derivative(".toList ++ (t ++ ([',', ' '] ++ [v] ++ [')'])) := by
    simp [keywordNotation, Request.call]
  have hexplicit (r : List Char) : Explicit ("derivative(".toList ++ r.head?.toList) := by
    refine List.isChain_append.2 ⟨by decide, by cases r.head? <;> simp, ?_⟩
    intro c hc d _
    obtain rfl : '(' = c := by simpa using hc
    exact apart_of_left (by decide) (by decide) d
  have hbreaks : Breaks ([',', ' '] ++ [v] ++ [')']) := by
    intro d hd
    obtain rfl : ',' = d := by simpa using hd
    decide
  have hvariable : Explicit ([',', ' '] ++ [v] ++ [')']) := by
    have hcomma : apart ',' ' ' = true := by decide
    have hblank : apart ' ' v = true := (apart_of_isSeparator (by decide) v).1
    simp [Explicit, hcomma, hblank, apart_of_isLatinLetter hv]
  rw [htext, (hfront.append (ht.append hbehind)).normalizeChars,
    insertProducts_append (hexplicit _), hbreaks.insertProducts_append, hvariable.insertProducts,
    ht.normalizeChars, htext]

/-- A text in which products are implied is as long as it was, or longer, on the same line. -/
theorem isLine_normalizeChars (ht : Unmarked t) (hline : Request.isLine t = true) :
    Request.isLine (normalizeChars t) = true := by
  obtain ⟨hne, hbreak⟩ : t ≠ [] ∧ '\n' ∉ t := by simpa [Request.isLine] using hline
  rw [ht.normalizeChars, insertProducts_eq]
  have hhead : (insertTimes impliesProduct t).head? = t.head? := head?_insertTimes t
  have hne' : insertTimes impliesProduct t ≠ [] := by
    intro hnil
    rw [hnil] at hhead
    exact hne (List.head?_eq_none_iff.1 hhead.symm)
  have hbreak' : '\n' ∉ insertTimes impliesProduct t := by
    intro hmem
    rcases mem_insertTimes hmem with hmem | h
    · exact hbreak hmem
    · simp at h
  simp [Request.isLine, hne', hbreak']

end Canonical

/-! ### Requests -/

namespace Request

open Canonical (Unmarked inBraces parenthesized)
open Text (isBlank isLatinLetter trim)

variable {v c d : Char} {s t : List Char}

/-- A text between two characters that are not blank has no blanks at its ends. -/
theorem solid_between (hc : isBlank c = false) (hd : isBlank d = false) (s : List Char) :
    Notation.Solid (c :: (s ++ [d])) where
  first := ⟨c, s ++ [d], rfl, hc⟩
  last := ⟨c :: s, d, rfl, hd⟩

/-- **Differentials in front of a bracket ask for a derivative**: a quotient, or a quotient of
brackets with a sign of multiplication behind it. -/
theorem classify_differentials (default : String) (hv : isLatinLetter v = true)
    (ht : isLine t = true) {text : String}
    (htext : text.toList = quotientNotation v t ∨
      text.toList = "(d)/(d".toList ++ [v] ++ (')' :: '*' :: parenthesized t)) :
    classify default text = .derivative (argument t) (String.singleton v) := by
  have hsome : ∃ c s, text.toList = c :: (s ++ [')']) ∧ isBlank c = false ∧
      differentials? (c :: (s ++ [')'])) = some (v, t) := by
    rcases htext with h | h
    · refine ⟨'d', "/d".toList ++ v :: '(' :: t, ?_, by decide, ?_⟩
      · simp [h, quotientNotation, parenthesized]
      · simp [differentials?, skip, Text.after?, dropClosing?, hv, ht]
    · refine ⟨'(', "d)/(d".toList ++ v :: ')' :: '*' :: '(' :: t, ?_, by decide, ?_⟩
      · simp [h, parenthesized]
      · simp [differentials?, skip, Text.after?, dropClosing?, hv, ht]
  obtain ⟨c, s, hlist, hc, hdifferentials⟩ := hsome
  rw [classify, hlist, (solid_between hc (by decide) s).trim_eq, classifyChars, differentialForm?,
    hdifferentials]
  rfl

/-- The keyword asks for the derivative by the variable behind the last comma. -/
theorem classify_keywordNotation (default : String) (hv : isLatinLetter v = true)
    (ht : isLine t = true) {text : String} (htext : text.toList = keywordNotation v t) :
    classify default text = .derivative (argument t) (String.singleton v) := by
  have hvariable : isVariable [v] = true := by simp [isVariable, hv]
  have hdivided := variableAfter?_append ht (w := [' ']) (by decide) hvariable
  have hname : String.ofList [v] = String.singleton v := by simp
  refine classify_keyword default (k := "derivative") (by simp [keywords]) htext ?_
  simp only [formOf?, derivativeForm?, arguments?_call, Option.bind_eq_bind, Option.bind_some,
    hdivided, hname, Option.pure_def]

/-- **The three notations of a derivative are one request**, with the expression as it is brought to
canonical text by itself, whatever the default variable is. -/
theorem classify_derivative_notations (default : String) {e : String}
    (hv : isLatinLetter v = true) (hne : e ≠ "") (hline : '\n' ∉ e.toList)
    (hplain : Unmarked e.toList) :
    let x := String.singleton v
    let request := Request.derivative (argument (normalize e).toList) x
    classify default (normalize ("\\frac\x7bd\x7d\x7bd" ++ x ++ "\x7d\\left(" ++ e ++ "\\right)")) =
        request ∧
      classify default (normalize ("d/d" ++ x ++ "(" ++ e ++ ")")) = request ∧
      classify default (normalize ("derivative(" ++ e ++ ", " ++ x ++ ")")) = request := by
  intro x request
  have hcanonical : isLine (Canonical.normalizeChars e.toList) = true :=
    Canonical.isLine_normalizeChars hplain (by simp [isLine, hne, hline])
  have hrequest : request = .derivative (argument (Canonical.normalizeChars e.toList)) x := by
    rw [← String.toList_ofList (l := Canonical.normalizeChars e.toList)]
    rfl
  rw [hrequest]
  refine ⟨?_, ?_, ?_⟩
  · refine classify_differentials default hv hcanonical (.inr ?_)
    have htext : ("\\frac\x7bd\x7d\x7bd" ++ x ++ "\x7d\\left(" ++ e ++ "\\right)").toList =
        fractionNotation v e.toList := by
      show _ = "\\frac".toList ++ inBraces ['d'] ++ inBraces ['d', v] ++ _
      simp [inBraces, x]
    rw [normalize, String.toList_ofList, htext,
      Canonical.normalizeChars_fractionNotation hv hplain]
  · refine classify_differentials default hv hcanonical (.inl ?_)
    have htext : ("d/d" ++ x ++ "(" ++ e ++ ")").toList = quotientNotation v e.toList := by
      simp [quotientNotation, parenthesized, x]
    rw [normalize, String.toList_ofList, htext,
      Canonical.normalizeChars_quotientNotation hv hplain]
  · refine classify_keywordNotation default hv hcanonical ?_
    have htext : ("derivative(" ++ e ++ ", " ++ x ++ ")").toList = keywordNotation v e.toList := by
      simp [keywordNotation, call, x]
    rw [normalize, String.toList_ofList, htext,
      Canonical.normalizeChars_keywordNotation hv hplain]

/-- An expression with implied products at its ends, a comma and a name, brackets that do not match
and blanks around it. -/
theorem classify_derivative_notations_overlaps :
    let e := " 2t(t+1)ab)(3x, t "
    let request := Request.derivative "2*t(t+1)*ab)*(3*x, t" "t"
    classify "y" (normalize ("\\frac\x7bd\x7d\x7bd" ++ "t" ++ "\x7d\\left(" ++ e ++ "\\right)")) =
        request ∧
      classify "y" (normalize ("d/d" ++ "t" ++ "(" ++ e ++ ")")) = request ∧
      classify "y" (normalize ("derivative(" ++ e ++ ", " ++ "t" ++ ")")) = request := by
  intro e request
  have hexpression : argument (normalize e).toList = "2*t(t+1)*ab)*(3*x, t" := by decide
  have hnotations := classify_derivative_notations "y" (v := 't') (e := e) (by decide) (by decide)
    (by decide) (by decide)
  rw [hexpression] at hnotations
  exact hnotations

end Request

end Reckoner
