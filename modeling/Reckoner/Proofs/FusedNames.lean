/-
**Letters in front of named macros.**

A macro that stands for a name becomes the name without its backslash, and the backslash is what
ended the letter in front of it.  A sign of multiplication is put behind digits and behind brackets,
but not between two letters.  So a letter and the name behind it are read as one longer name: a
variable of its own or, with a bracket behind it, a call.  Such a call has no function except for
four names behind an `a`, where it is the call of another function.

Main definitions:

* `Reckoner.Canonical.nameMacros` — the names that are macros.

Main results:

* `Reckoner.Elementary.ofName?_cons_isSome_iff` — the names that become names of other functions;
* `Reckoner.Expr.parse_normalize_letterName` — **a letter and a name behind it are one name**.
-/

import Reckoner.Proofs.Operands
import Reckoner.Proofs.Ratio

set_option autoImplicit false

namespace Reckoner

/-! ### Names -/

namespace Canonical

/-- The names of constants and functions that are written as macros. -/
def nameMacros : List String :=
  ["pi", "hbar", "sin", "cos", "tan", "cot", "ln", "log", "exp", "arcsin", "arccos", "arctan"]

theorem mem_macroTable : ∀ m ∈ nameMacros, ("\\" ++ m, m) ∈ macroTable := by decide

theorem isAlpha_of_mem_nameMacros : ∀ m ∈ nameMacros, ∀ c ∈ m.toList, c.isAlpha = true := by
  simp [nameMacros]

end Canonical

namespace Elementary

/-- The names of functions. -/
def names : List String :=
  ["exp", "ln", "log", "log10", "sqrt", "abs", "sin", "cos", "tan", "tg", "cot", "ctg", "asin",
   "arcsin", "acos", "arccos", "atan", "arctan", "arctg", "acot", "arccot", "arcctg"]

theorem mem_names {x : String} (h : (ofName? x).isSome = true) : x ∈ names := by
  unfold ofName? at h
  split at h <;> first | decide | simp at h

/-- Behind another letter, four of the names are names of functions again. -/
theorem ofName?_cons_isSome_iff {v : Char} {m : String} (hm : m ∈ Canonical.nameMacros) :
    (ofName? (String.ofList (v :: m.toList))).isSome = true ↔
      v = 'a' ∧ m ∈ ["sin", "cos", "tan", "cot"] := by
  have hnames : ∀ x ∈ names, ∀ m ∈ Canonical.nameMacros, x.toList.tail = m.toList →
      x.toList.head? = some 'a' ∧ m ∈ ["sin", "cos", "tan", "cot"] := by
    decide
  have harcs : ∀ m ∈ ["sin", "cos", "tan", "cot"],
      (ofName? (String.ofList ('a' :: m.toList))).isSome = true := by
    decide
  constructor
  · intro h
    have := hnames _ (mem_names h) m hm (by rw [String.toList_ofList, List.tail_cons])
    simpa using this
  · rintro ⟨rfl, h⟩
    exact harcs m h

end Elementary

/-! ### Canonical texts -/

namespace Canonical

open Text (isLetter isDecimalDigit)

variable {u : Option Char} {m : String} {s t a : List Char}

/-- No product is implied behind characters that are neither digits nor closing brackets. -/
theorem explicit_append_of_left (hs : ∀ c ∈ s, isDecimalDigit c = false ∧ c ≠ ')')
    (ht : Explicit t) : Explicit (s ++ t) := by
  induction s with
  | nil => exact ht
  | cons c s ih =>
      obtain ⟨hc, hs⟩ := List.forall_mem_cons.1 hs
      exact List.isChain_cons.2 ⟨fun d _ => apart_of_left hc.1 hc.2 d, ih hs⟩

/-- A name, with or without a letter in front, is made of letters. -/
theorem isLetter_of_mem_fused (hu : ∀ v ∈ u, isLetter v = true) (hm : m ∈ nameMacros) :
    ∀ c ∈ u.toList ++ m.toList, isLetter c = true := by
  intro c hc
  rcases List.mem_append.1 hc with hc | hc
  · exact hu c (by simpa using hc)
  · simp [isLetter, Text.isLatinLetter, isAlpha_of_mem_nameMacros m hm c hc]

theorem explicit_fused (hu : ∀ v ∈ u, isLetter v = true) (hm : m ∈ nameMacros)
    (ht : Explicit t) : Explicit (u.toList ++ m.toList ++ t) := by
  refine explicit_append_of_left (fun c hc => ?_) ht
  have hletter := isLetter_of_mem_fused hu hm c hc
  refine ⟨Text.isDecimalDigit_of_isLetter hletter, ?_⟩
  rintro rfl
  exact absurd hletter (by decide +kernel)

theorem unmarked_letter (hu : ∀ v ∈ u, isLetter v = true) : Unmarked u.toList := by
  intro c hc
  have hletter := hu c (by simpa using hc)
  refine ⟨?_, ?_, ?_⟩ <;> rintro rfl <;> exact absurd hletter (by decide +kernel)

/-- The backslash in front of a name is all that goes. -/
theorem writes_fused (hu : ∀ v ∈ u, isLetter v = true) (hm : m ∈ nameMacros) :
    Writes (u.toList ++ '\\' :: m.toList) (u.toList ++ m.toList) := by
  have hcommand : Writes ("\\" ++ m).toList m.toList := .command (mem_macroTable m hm)
  have := (unmarked_letter hu).writes.append hcommand
  simpa [String.toList_append] using this

/-- **A letter in front of a name is joined to it.** -/
theorem normalizeChars_fused (hu : ∀ v ∈ u, isLetter v = true) (hm : m ∈ nameMacros) :
    normalizeChars (u.toList ++ '\\' :: m.toList) = u.toList ++ m.toList := by
  have hexplicit := explicit_fused hu hm (t := []) .nil
  rw [List.append_nil] at hexplicit
  rw [(writes_fused hu hm).normalizeChars, hexplicit.insertProducts]

/-- The same with a bracket behind the name. -/
theorem normalizeChars_fusedCall (hu : ∀ v ∈ u, isLetter v = true) (hm : m ∈ nameMacros)
    (ha : Unmarked a) :
    normalizeChars (u.toList ++ '\\' :: m.toList ++ parenthesized a) =
      u.toList ++ m.toList ++ parenthesized (normalizeChars a) := by
  have hgroup : Unmarked (parenthesized a) := ha.parenthesized
  have hexplicit := explicit_fused hu hm (t := ['(']) (List.isChain_singleton _)
  have hfront := insertProducts_append (r := parenthesized a) hexplicit
  have hargument := insertProducts_group (r := []) (by simp) a
  rw [List.append_nil] at hargument
  rw [((writes_fused hu hm).append hgroup.writes).normalizeChars, hfront, hargument,
    ha.normalizeChars]
  simp [insertProducts, insertTimes]

end Canonical

/-! ### Reading -/

namespace Notation

open Canonical Text

variable {κ : Type} [Number κ] {u : Option Char} {m : String} {t a : List Char} {e : Expr κ}

theorem isMixedName_fused (hu : ∀ v ∈ u, isLetter v = true) (hm : m ∈ nameMacros) :
    isMixedName (u.toList ++ m.toList) = true := by
  have hname : ∀ m ∈ nameMacros, isMixedName m.toList = true := by decide
  cases u with
  | none => exact hname m hm
  | some v =>
      refine isMixedName_iff.2 ⟨v, m.toList, rfl, hu v rfl, fun d hd => .inl ?_⟩
      simp [Char.isAlphanum, isAlpha_of_mem_nameMacros m hm d hd]

/-- **A name is read as one variable**, with the letter in front of it. -/
theorem parse_normalizeChars_fused (hu : ∀ v ∈ u, isLetter v = true) (hm : m ∈ nameMacros) :
    parse (normalizeChars (u.toList ++ '\\' :: m.toList)) =
      .ok (.var (String.ofList (u.toList ++ m.toList)) : Expr κ) := by
  rw [normalizeChars_fused hu hm]
  exact parse_name (isMixedName_fused hu hm)

/-- **A name with a bracket behind it is read as one call**, with the letter in front of it. -/
theorem parse_normalizeChars_fusedCall (hu : ∀ v ∈ u, isLetter v = true) (hm : m ∈ nameMacros)
    (ha : Unmarked a) (he : parse (normalizeChars a) = .ok e) :
    parse (normalizeChars (u.toList ++ '\\' :: m.toList ++ parenthesized a)) =
      parseCall (u.toList ++ m.toList) e := by
  have hcall := parse_call (κ := κ) (isMixedName_fused hu hm) (nested_of_parse he)
  rw [normalizeChars_fusedCall hu hm ha]
  rw [he] at hcall
  exact hcall

end Notation

/-! ### Strings -/

namespace Expr

open Notation Canonical

variable {κ : Type} [Number κ] {v : Char} {m A : String} {e : Expr κ}

/-- **A letter and a name behind it are one name**, and never a product: what is read is another
variable, or the call of a function by another name.  There is such a function for four names behind
an `a` only. -/
theorem parse_normalize_letterName (hv : Text.isLetter v = true) (hm : m ∈ nameMacros)
    (hA : Unmarked A.toList) (he : Expr.parse (normalize A) = .ok e) :
    (Expr.parse (normalize (String.singleton v)) = .ok (.var (String.singleton v) : Expr κ) ∧
      Expr.parse (normalize ("\\" ++ m)) = .ok (.var m : Expr κ) ∧
      Expr.parse (normalize (String.singleton v ++ "\\" ++ m)) =
        .ok (.var (String.singleton v ++ m) : Expr κ)) ∧
    (Expr.parse (normalize ("\\" ++ m ++ "(" ++ A ++ ")")) = parseCall m.toList e ∧
      Expr.parse (normalize (String.singleton v ++ "\\" ++ m ++ "(" ++ A ++ ")")) =
        parseCall (v :: m.toList) e) ∧
    ((Elementary.ofName? (String.singleton v ++ m)).isSome = true ↔
      v = 'a' ∧ m ∈ ["sin", "cos", "tan", "cot"]) := by
  have hjoined : String.ofList (v :: m.toList) = String.singleton v ++ m := by
    rw [← String.toList_inj]
    simp [String.toList_append]
  have hletter : ∀ c ∈ some v, Text.isLetter c = true := by simpa using hv
  have hnone : ∀ c ∈ (none : Option Char), Text.isLetter c = true := by simp
  have hsingle : isMixedName [v] = true := by simpa [isMixedName] using hv
  simp only [Expr.parse, normalize, String.toList_ofList] at he ⊢
  rw [← hjoined]
  refine ⟨⟨?_, ?_, ?_⟩, ⟨?_, ?_⟩, Elementary.ofName?_cons_isSome_iff hm⟩
  · have hunmarked : Unmarked [v] := unmarked_letter hletter
    have hexplicit : Explicit [v] := List.isChain_singleton v
    have hname := parse_name (κ := κ) hsingle
    rw [String.toList_singleton, hunmarked.normalizeChars, hexplicit.insertProducts, hname]
    rfl
  · have := parse_normalizeChars_fused (κ := κ) hnone hm
    simpa [String.toList_append] using this
  · have := parse_normalizeChars_fused (κ := κ) hletter hm
    rw [String.toList_append, String.toList_append, String.toList_singleton]
    exact this
  · have := parse_normalizeChars_fusedCall hnone hm hA he
    simpa [String.toList_append, parenthesized] using this
  · have := parse_normalizeChars_fusedCall hletter hm hA he
    simpa [String.toList_append, parenthesized] using this

/-- `a\sin(x)` is read as the arc sine of `x`, and `a\pi` as the variable `api`. -/
theorem parse_normalize_letterName_arc :
    Expr.parse (normalize (String.singleton 'a' ++ "\\" ++ "pi")) =
        .ok (.var "api" : Expr Ratio) ∧
      Expr.parse (normalize (String.singleton 'a' ++ "\\" ++ "sin" ++ "(" ++ "x" ++ ")")) =
        .ok (.apply .arcsin (.var "x") : Expr Ratio) := by
  have hx : Unmarked "x".toList := by decide
  have hargument : Expr.parse (normalize "x") = .ok (.var "x" : Expr Ratio) := by
    have hcanonical : normalize "x" = String.ofList ['x'] := by decide
    rw [hcanonical, Expr.parse, String.toList_ofList]
    exact (Spells.name (x := "x") (by decide)).parse_eq_ok
  have hpi := (parse_normalize_letterName (v := 'a') (m := "pi") (by decide) (by decide) hx
    hargument).1.2.2
  have hsin := (parse_normalize_letterName (v := 'a') (m := "sin") (by decide) (by decide) hx
    hargument).2.1.2
  exact ⟨hpi, hsin⟩

/-- The product of `e` and the sine of zero has both its factors, but `e\sin(0)` is read as a call
of a function `esin`, and there is none. -/
theorem parse_normalize_letterSine :
    let zero : Expr Ratio := .const ⟨0⟩
    Expr.parse (normalize "e") = .ok (.var "e" : Expr Ratio) ∧
      Expr.parse (normalize "\\sin(0)") = .ok (.apply .sin zero) ∧
      Expr.parse (normalize "e\\sin(0)") =
        (.error (.undefinedFunction "esin") : Except ParseError (Expr Ratio)) := by
  intro zero
  have hunmarked : Unmarked ['0'] := by decide
  have hzero : Notation.parse (normalizeChars ['0']) = .ok zero := by
    have hcanonical : normalizeChars ['0'] = ['0'] := by decide
    have hread := (Spells.digit (κ := Ratio) (d := '0') rfl).parse_eq_ok
    have hvalue : Arithmetic.ofDecimal (Literal.natural ['0']) 0 = (⟨0⟩ : Ratio) := by
      decide +kernel
    rw [hcanonical, hread, hvalue]
  have he : normalize "e" = String.ofList ['e'] := by decide
  have hnone : ∀ c ∈ (none : Option Char), Text.isLetter c = true := by simp
  have hletter : ∀ c ∈ some 'e', Text.isLetter c = true := by
    simp [show Text.isLetter 'e' = true by decide]
  have hsine := parse_normalizeChars_fusedCall (m := "sin") hnone (by decide) hunmarked hzero
  have hfused := parse_normalizeChars_fusedCall (m := "sin") hletter (by decide) hunmarked hzero
  have hcall : parseCall "sin".toList zero = .ok (.apply .sin zero) := rfl
  have hnocall : parseCall "esin".toList zero = .error (.undefinedFunction "esin") := rfl
  refine ⟨?_, ?_, ?_⟩
  · rw [he, Expr.parse, String.toList_ofList]
    exact parse_name (by decide)
  · rw [Expr.parse, normalize, String.toList_ofList, ← hcall]
    simpa [parenthesized] using hsine
  · rw [Expr.parse, normalize, String.toList_ofList, ← hnocall]
    simpa [parenthesized] using hfused

end Expr

end Reckoner
