/-
**Requests are found in their texts.**

A request is written with its keyword and its arguments in brackets.  The expression may hold
whatever the forms of requests are made of: commas, arrows, brackets and keywords.  It is found
nevertheless, since the last comma that allows it divides the arguments, a name has no comma, and
behind the comma in front of a name with an arrow there is no second arrow as long as the target
has none.  The keyword at the front decides between the forms, and none of the keywords is a
quotient of differentials.

Main definitions:

* `Reckoner.Request.IsArgument` — a line without white space at its ends;
* `Reckoner.Request.isVariable` — names of variables.

Main results:

* `Reckoner.Request.variableAfter?_append`, `Reckoner.Request.limitArguments?_append` — **the comma
  in front of the name divides the arguments**;
* `Reckoner.Request.endsInVariable_of_variableAfter?` — arguments that are divided end in a name;
* `Reckoner.Request.classify_keyword` — the keyword decides between the forms;
* `Reckoner.Request.classify_spelled` — **every request is found in its text**.
-/

import Reckoner.Proofs.BracedExponent
import Reckoner.Proofs.PlainInput

set_option autoImplicit false

namespace Reckoner

namespace Text

variable {c : Char} {l r : List Char}

/-! ### Characters of words -/

set_option maxRecDepth 2000 in
theorem wordMarkRanges_ge : ∀ r ∈ wordMarkRanges, 0x5F ≤ r.1 := by decide

/-- No character of a word comes before `0`. -/
theorem isWordChar_of_lt (h : c.toNat < 0x30) : isWordChar c = false := by
  have hdigit : c.isDigit = false := by
    rw [Bool.eq_false_iff]
    intro hd
    have := toNat_of_isDigit hd
    omega
  have hdecimal : inRanges decimalDigitRanges c = false := by
    refine inRanges_of_lt fun r hr => ?_
    rcases decimalDigitRanges_ge r hr with rfl | hge
    · exact h
    · omega
  have hmark : inRanges wordMarkRanges c = false := by
    refine inRanges_of_lt fun r hr => ?_
    have := wordMarkRanges_ge r hr
    omega
  simp [isWordChar, isLetter_of_lt (show c.toNat < 0x41 by omega), hdigit, hdecimal, hmark]

/-- Behind the last comma there is none. -/
theorem cutLast?_append (h : c ∉ r) (l : List Char) : cutLast? c (l ++ c :: r) = some (l, r) := by
  have hnone : cutLast? c r = none := by
    rw [Option.eq_none_iff_forall_ne_some]
    intro p hp
    exact h (by simp [cutLast?_eq hp])
  induction l with
  | nil => simp [cutLast?, hnone]
  | cons d l ih => rw [List.cons_append, cutLast?, ih]

end Text

namespace Request

open Notation (Blanks)
open Text (isBlank isLatinLetter isWordChar trim after? cutLast?)

variable {k : String} {l r t w x target : List Char}

/-! ### Arguments -/

/-- An argument as it is written: a line without white space at its ends. -/
structure IsArgument (t : List Char) : Prop where
  ne_nil : t ≠ []
  line : '\n' ∉ t
  trimmed : trim t = t

/-- The name of a variable: a letter of ASCII, then characters of a word. -/
def isVariable : List Char → Bool
  | [] => false
  | c :: t => isLatinLetter c && t.all isWordChar

/-- A text that ends in a comma and a name, with or without blanks between them. -/
def EndsInVariable (t : List Char) : Prop :=
  ∃ l w x, t = l ++ ',' :: (w ++ x) ∧ Blanks w ∧ isVariable x = true

theorem isVariable_iff : isVariable x = true ↔
    ∃ c t, x = c :: t ∧ isLatinLetter c = true ∧ ∀ d ∈ t, isWordChar d = true := by
  cases x with
  | nil => simp [isVariable]
  | cons c t => simp [isVariable]

theorem IsArgument.isLine (h : IsArgument t) : isLine t = true := by
  simp [Request.isLine, h.ne_nil, h.line]

theorem IsArgument.argument (h : IsArgument t) : argument t = String.ofList t := by
  rw [Request.argument, h.trimmed]

/-- An argument begins with a character that is not blank. -/
theorem IsArgument.dropWhile_blanks (h : IsArgument t) (hw : Blanks w) :
    (w ++ t).dropWhile isBlank = t := by
  have hne : trim t ≠ [] := by rw [h.trimmed]; exact h.ne_nil
  obtain ⟨u, c, r, rfl, hu, hc⟩ := Text.exists_first hne
  have htrim := h.trimmed
  rw [Text.trim_blanks_append hu hc] at htrim
  have hall : ∀ d ∈ w, isBlank d = true := hw
  rw [List.dropWhile_append_of_pos hall, ← htrim, List.dropWhile_cons_of_neg (by simp [hc])]

/-- A name has neither commas nor line breaks. -/
theorem le_of_mem_variable (hx : isVariable x = true) : ∀ c ∈ x, 0x30 ≤ c.toNat := by
  obtain ⟨c, t, rfl, hc, ht⟩ := isVariable_iff.1 hx
  refine List.forall_mem_cons.2 ⟨?_, fun d hd => ?_⟩
  · have := Text.toNat_of_isAlpha hc
    omega
  · by_contra hlt
    have hword := ht d hd
    rw [Text.isWordChar_of_lt (by omega)] at hword
    exact Bool.false_ne_true hword

/-- A name behind blanks is read up to what is no character of a word. -/
theorem nameAfterBlanks?_append (hw : Blanks w) (hx : isVariable x = true)
    (hr : ∀ c ∈ r.head?, isWordChar c = false) :
    nameAfterBlanks? (w ++ (x ++ r)) = some (x, r) := by
  obtain ⟨c, t, rfl, hc, ht⟩ := isVariable_iff.1 hx
  have hblank : isBlank c = false := Text.isBlank_of_isLetter (by simp [Text.isLetter, hc])
  have hstops : r.takeWhile isWordChar = [] ∧ r.dropWhile isWordChar = r := by
    cases r with
    | nil => simp
    | cons d r => simp [hr d rfl]
  have hall : ∀ d ∈ w, isBlank d = true := hw
  rw [nameAfterBlanks?, List.dropWhile_append_of_pos hall, List.cons_append,
    List.dropWhile_cons_of_neg (by simp [hblank])]
  simp only [hc, if_true, List.takeWhile_append_of_pos ht, List.dropWhile_append_of_pos ht,
    hstops.1, hstops.2, List.append_nil]

/-- A name that is read stands behind blanks. -/
theorem nameAfterBlanks?_eq (h : nameAfterBlanks? t = some (x, r)) :
    ∃ w, Blanks w ∧ isVariable x = true ∧ t = w ++ (x ++ r) := by
  refine ⟨t.takeWhile isBlank, fun c hc => List.mem_takeWhile_imp hc, ?_⟩
  unfold nameAfterBlanks? at h
  split at h
  · rename_i c rest hdrop
    split at h
    · rename_i hc
      obtain ⟨rfl, rfl⟩ := Prod.mk.inj (Option.some.inj h)
      refine ⟨?_, ?_⟩
      · exact isVariable_iff.2 ⟨c, _, rfl, hc, fun d hd => List.mem_takeWhile_imp hd⟩
      · rw [List.cons_append, List.takeWhile_append_dropWhile, ← hdrop,
          List.takeWhile_append_dropWhile]
    · simp at h
  · simp at h

/-! ### The comma in front of a name -/

/-- **The comma in front of a name divides the arguments**, whatever the expression holds. -/
theorem variableAfter?_append (hl : isLine l = true) (hw : Blanks w) (hx : isVariable x = true) :
    variableAfter? (l ++ ',' :: (w ++ x)) = some (l, x) := by
  have hcomma : ',' ∉ w ++ x := by
    rw [List.mem_append, not_or]
    constructor
    · exact fun hmem => hw.ne_of_mem hmem (by decide) rfl
    · exact fun hmem => absurd (le_of_mem_variable hx ',' hmem) (by decide)
  have hname := nameAfterBlanks?_append (r := []) hw hx (by simp)
  rw [List.append_nil] at hname
  rw [variableAfter?, Text.cutLast?_append hcomma]
  simp only [hname, hl, if_true]

/-- Arguments that are divided in front of a name end in it. -/
theorem endsInVariable_of_variableAfter? (h : variableAfter? t = some (l, x)) :
    ∃ w, t = l ++ ',' :: (w ++ x) ∧ Blanks w ∧ isVariable x = true := by
  unfold variableAfter? at h
  split at h
  · rename_i hcut
    split at h
    · rename_i hname
      split at h
      · obtain ⟨rfl, rfl⟩ := Prod.mk.inj (Option.some.inj h)
        obtain ⟨w, hw, hx, rfl⟩ := nameAfterBlanks?_eq hname
        exact ⟨w, by simpa using Text.cutLast?_eq hcut, hw, hx⟩
      · simp at h
    · simp at h
  · simp at h

/-! ### The comma in front of an arrow -/

theorem arrow_of_approach? (h : (approach? t).isSome = true) : "->".toList <:+: t := by
  unfold approach? at h
  cases hname : nameAfterBlanks? t with
  | none => simp [hname] at h
  | some p =>
      obtain ⟨x, r⟩ := p
      obtain ⟨w, -, -, rfl⟩ := nameAfterBlanks?_eq hname
      cases harrow : after? ['-', '>'] (r.dropWhile isBlank) with
      | none => simp [hname, harrow] at h
      | some rest =>
          have hsuffix : "->".toList <:+: r :=
            (List.prefix_iff_exists_eq_append.2 ⟨rest, Text.after?_eq harrow⟩).isInfix.trans
              (List.dropWhile_suffix isBlank).isInfix
          exact hsuffix.trans ((List.suffix_append x r).trans (List.suffix_append w _)).isInfix

/-- Without an arrow there is no comma that divides the arguments of a limit. -/
theorem approachAfter?_eq_none (h : ¬"->".toList <:+: t) : approachAfter? t = none := by
  induction t with
  | nil => rfl
  | cons c t ih =>
      have ht : ¬"->".toList <:+: t := fun hi => h (hi.trans (List.suffix_cons c t).isInfix)
      have hnone : approach? t = none := by
        rw [← Option.not_isSome_iff_eq_none]
        exact fun hsome => ht (arrow_of_approach? hsome)
      simp [approachAfter?, ih ht, hnone]

/-- Characters that are no commas do not divide. -/
theorem approachAfter?_append_none (hr : ',' ∉ r) (ht : approachAfter? t = none) :
    approachAfter? (r ++ t) = none := by
  induction r with
  | nil => exact ht
  | cons c r ih =>
      obtain ⟨hc, hr⟩ := List.ne_and_not_mem_of_not_mem_cons hr
      simp [approachAfter?, ih hr, Ne.symm hc]

/-- A comma divides when none behind it does. -/
theorem approachAfter?_append (hl : '\n' ∉ l) (hnone : approachAfter? r = none)
    (hr : approach? r = some (x, target)) :
    approachAfter? (l ++ ',' :: r) = some (l, x, target) := by
  induction l with
  | nil => simp [approachAfter?, hnone, hr]
  | cons c l ih =>
      obtain ⟨hc, hl⟩ := List.ne_and_not_mem_of_not_mem_cons hl
      rw [List.cons_append, approachAfter?, if_neg (Ne.symm hc), ih hl]

/-- **The comma in front of the name divides the arguments of a limit**, whatever the expression
holds, when there is no arrow in the target. -/
theorem limitArguments?_append (hl : IsArgument l) (hx : isVariable x = true)
    (ht : IsArgument target) (harrow : ¬"->".toList <:+: target) :
    limitArguments? (l ++ ',' :: ([' '] ++ (x ++ (" -> ".toList ++ target)))) =
      some (l, x, target) := by
  have hblank : Blanks [' '] := by decide
  have hname : nameAfterBlanks? ([' '] ++ (x ++ (" -> ".toList ++ target))) =
      some (x, " -> ".toList ++ target) := by
    refine nameAfterBlanks?_append hblank hx fun c hc => ?_
    obtain rfl : ' ' = c := by simpa using hc
    exact Text.isWordChar_of_lt (by decide)
  have hbehind : after? ['-', '>'] ((" -> ".toList ++ target).dropWhile isBlank) =
      some ([' '] ++ target) := by
    have hminus : isBlank '-' = false := by decide
    have hspace : isBlank ' ' = true := by decide
    simp [hminus, hspace, after?]
  have htarget : target? ([' '] ++ target) = some target := by
    rw [target?, ht.dropWhile_blanks hblank]
    cases target with
    | nil => exact absurd rfl ht.ne_nil
    | cons c target => simpa using ht.line
  have happroach : approach? ([' '] ++ (x ++ (" -> ".toList ++ target))) = some (x, target) := by
    have harrow' : "->".toList = ['-', '>'] := rfl
    simp only [approach?, hname, harrow', hbehind, htarget, Option.bind_eq_bind, Option.bind_some,
      Option.pure_def]
  have hcomma : ',' ∉ [' '] ++ (x ++ " -> ".toList) := by
    have : ',' ∉ x := fun hmem => absurd (le_of_mem_variable hx ',' hmem) (by decide)
    simp [this]
  have hnone : approachAfter? ([' '] ++ (x ++ (" -> ".toList ++ target))) = none := by
    simpa using approachAfter?_append_none hcomma (approachAfter?_eq_none harrow)
  cases l with
  | nil => exact absurd rfl hl.ne_nil
  | cons c l =>
      obtain ⟨hc, hline⟩ := List.ne_and_not_mem_of_not_mem_cons hl.line
      rw [List.cons_append, limitArguments?, if_neg (Ne.symm hc),
        approachAfter?_append hline hnone happroach]
      rfl

/-! ### Keywords -/

/-- A keyword with its arguments in brackets. -/
def call (k : String) (t : List Char) : List Char := k.toList ++ '(' :: (t ++ [')'])

theorem arguments?_call (k : String) (t : List Char) : arguments? k (call k t) = some t := by
  have hafter : after? (k.toList ++ ['(']) (call k t) = some (t ++ [')']) := by
    simpa [call] using Canonical.after?_append (k.toList ++ ['(']) (t ++ [')'])
  simp [arguments?, hafter, dropClosing?]

/-- No keyword is the beginning of another one. -/
theorem arguments?_call_of_ne {k' : String} (hk : k ∈ keywords) (hk' : k' ∈ keywords)
    (hne : k' ≠ k) (t : List Char) : arguments? k' (call k t) = none := by
  have hclash : ∀ k ∈ keywords, ∀ k' ∈ keywords, k' ≠ k →
      Canonical.clash (k'.toList ++ ['(']) (k.toList ++ ['(']) = true := by
    decide
  have hafter := Canonical.after?_of_clash (hclash k hk k' hk' hne) (t ++ [')'])
  have htext : call k t = k.toList ++ ['('] ++ (t ++ [')']) := by simp [call]
  rw [arguments?, htext, hafter]
  rfl

/-- No keyword begins with the quotient of differentials. -/
theorem differentialForm?_call (hk : k ∈ keywords) (t : List Char) :
    differentialForm? (call k t) = none := by
  have hnone : differentials? (call k t) = none := by
    simp only [keywords, List.mem_cons, List.not_mem_nil, or_false] at hk
    rcases hk with rfl | rfl | rfl | rfl | rfl | rfl <;>
      simp [differentials?, call, skip, after?]
  rw [differentialForm?, hnone]
  rfl

theorem trim_call (hk : k ∈ keywords) (t : List Char) : trim (call k t) = call k t := by
  obtain ⟨c, k', hk', hc⟩ : ∃ c k', k.toList = c :: k' ∧ isBlank c = false := by
    simp only [keywords, List.mem_cons, List.not_mem_nil, or_false] at hk
    rcases hk with rfl | rfl | rfl | rfl | rfl | rfl <;> exact ⟨_, _, rfl, by decide⟩
  have hfirst := Text.trim_blanks_append (u := []) (by simp) hc (k' ++ '(' :: (t ++ [')']))
  have hlast := Text.trimRight_append_cons (c := ')') (by decide) (k' ++ '(' :: t) []
  rw [List.nil_append] at hfirst
  rw [call, hk', List.cons_append, hfirst]
  simpa [Text.trimRight] using hlast

/-- The form that belongs to a keyword. -/
def formOf? (default k : String) (cs : List Char) : Option Request :=
  match k with
  | "derivative" => derivativeForm? default cs
  | "simplify" => simpleForm? "simplify" .simplify cs
  | "expand" => simpleForm? "expand" .expand cs
  | "factor" => simpleForm? "factor" .factor cs
  | "solve" => solveForm? cs
  | "limit" => limitForm? cs
  | _ => none

/-- **The keyword decides between the forms.** -/
theorem classify_keyword (default : String) (hk : k ∈ keywords) {q : Request} {text : String}
    (htext : text.toList = call k t) (hq : formOf? default k (call k t) = some q) :
    classify default text = q := by
  have hother : ∀ k' ∈ keywords, k' ≠ k → arguments? k' (call k t) = none :=
    fun k' hk' hne => arguments?_call_of_ne hk hk' hne t
  have hdifferential := differentialForm?_call hk t
  rw [classify, htext, trim_call hk, classifyChars, hdifferential]
  generalize call k t = cs at hother hq
  simp only [keywords, List.mem_cons, List.not_mem_nil, or_false, forall_eq_or_imp, forall_eq]
    at hother hk
  rcases hk with rfl | rfl | rfl | rfl | rfl | rfl <;>
    simp_all [formOf?, derivativeForm?, simpleForm?, solveForm?, limitForm?]

theorem simpleForm?_call (ht : IsArgument t) (request : String → Request) :
    simpleForm? k request (call k t) = some (request (String.ofList t)) := by
  simp [simpleForm?, arguments?_call, ht.isLine, ht.argument]

/-- **Every request is found in its text**, whatever commas, arrows, brackets and keywords the
expression holds; a derivative is taken by `default` unless its expression ends in a comma and a
name. -/
theorem classify_spelled (default : String) {e x target : String} (he : IsArgument e.toList)
    (hx : isVariable x.toList = true) (ht : IsArgument target.toList)
    (harrow : ¬"->".toList <:+: target.toList) :
    classify default ("solve(" ++ e ++ ", " ++ x ++ ")") = .solve e x ∧
      classify default ("limit(" ++ e ++ ", " ++ x ++ " -> " ++ target ++ ")") =
        .limit e x target ∧
      classify default ("derivative(" ++ e ++ ", " ++ x ++ ")") = .derivative e x ∧
      classify default ("simplify(" ++ e ++ ")") = .simplify e ∧
      classify default ("expand(" ++ e ++ ")") = .expand e ∧
      classify default ("factor(" ++ e ++ ")") = .factor e ∧
      (¬EndsInVariable e.toList →
        classify default ("derivative(" ++ e ++ ")") = .derivative e default) := by
  have hdivided := variableAfter?_append he.isLine (w := [' ']) (by decide) hx
  have hlimit := limitArguments?_append he hx ht harrow
  refine ⟨?_, ?_, ?_, ?_, ?_, ?_, fun hends => ?_⟩
  · refine classify_keyword default (k := "solve") (by simp [keywords])
      (t := e.toList ++ ',' :: ([' '] ++ x.toList)) (by simp [call]) ?_
    simp only [formOf?, solveForm?, arguments?_call, Option.bind_eq_bind, Option.bind_some,
      hdivided, he.argument, String.ofList_toList, Option.pure_def]
  · refine classify_keyword default (k := "limit") (by simp [keywords])
      (t := e.toList ++ ',' :: ([' '] ++ (x.toList ++ (" -> ".toList ++ target.toList))))
      (by simp [call]) ?_
    simp only [formOf?, limitForm?, arguments?_call, Option.bind_eq_bind, Option.bind_some,
      hlimit, he.argument, ht.argument, String.ofList_toList, Option.pure_def]
  · refine classify_keyword default (k := "derivative") (by simp [keywords])
      (t := e.toList ++ ',' :: ([' '] ++ x.toList)) (by simp [call]) ?_
    simp only [formOf?, derivativeForm?, arguments?_call, Option.bind_eq_bind, Option.bind_some,
      hdivided, he.argument, String.ofList_toList, Option.pure_def]
  · refine classify_keyword default (k := "simplify") (by simp [keywords]) (t := e.toList)
      (by simp [call]) ?_
    simp only [formOf?, simpleForm?_call he, String.ofList_toList]
  · refine classify_keyword default (k := "expand") (by simp [keywords]) (t := e.toList)
      (by simp [call]) ?_
    simp only [formOf?, simpleForm?_call he, String.ofList_toList]
  · refine classify_keyword default (k := "factor") (by simp [keywords]) (t := e.toList)
      (by simp [call]) ?_
    simp only [formOf?, simpleForm?_call he, String.ofList_toList]
  · have hnone : variableAfter? e.toList = none := by
      rw [Option.eq_none_iff_forall_ne_some]
      rintro ⟨l, y⟩ h
      obtain ⟨w, htext, hw, hy⟩ := endsInVariable_of_variableAfter? h
      exact hends ⟨l, w, y, htext, hw, hy⟩
    refine classify_keyword default (k := "derivative") (by simp [keywords]) (t := e.toList)
      (by simp [call]) ?_
    simp only [formOf?, derivativeForm?, arguments?_call, Option.bind_eq_bind, Option.bind_some,
      hnone, he.isLine, he.argument, String.ofList_toList, if_true]

/-- An expression with a comma and a name in front of an arrow, a keyword and brackets that do not
match, and a target with a comma. -/
theorem classify_spelled_keywordInside :
    let e := "limit(f(y, x -> 1), solve(a, b), (2"
    classify "t" ("solve(" ++ e ++ ", x_1)") = .solve e "x_1" ∧
      classify "t" ("limit(" ++ e ++ ", x_1 -> -1, 2)") = .limit e "x_1" "-1, 2" ∧
      classify "t" ("derivative(" ++ e ++ ", x_1)") = .derivative e "x_1" ∧
      classify "t" ("simplify(" ++ e ++ ")") = .simplify e ∧
      classify "t" ("expand(" ++ e ++ ")") = .expand e ∧
      classify "t" ("factor(" ++ e ++ ")") = .factor e ∧
      classify "t" ("derivative(" ++ e ++ ")") = .derivative e "t" := by
  intro e
  have he : IsArgument e.toList := ⟨by simp [e], by simp [e], by decide⟩
  have ht : IsArgument "-1, 2".toList := ⟨by simp, by simp, by decide⟩
  have harrow : ¬"->".toList <:+: "-1, 2".toList := by decide
  -- behind its last comma there is a bracket
  have hends : ¬EndsInVariable e.toList := by
    rintro ⟨l, w, y, htext, hw, hy⟩
    have hnone : variableAfter? e.toList = none := by decide
    have hline : isLine l = true := by
      cases l with
      | nil => exact absurd (congrArg List.head? htext) (by simp [e])
      | cons c l =>
          have : '\n' ∉ c :: l := fun hmem => he.line (htext ▸ List.mem_append_left _ hmem)
          simp [isLine, this]
    rw [htext, variableAfter?_append hline hw hy] at hnone
    simp at hnone
  obtain ⟨hsolve, hlimit, hderivative, hsimplify, hexpand, hfactor, hdefault⟩ :=
    classify_spelled "t" he (x := "x_1") (by decide +kernel) ht harrow
  exact ⟨hsolve, hlimit, hderivative, hsimplify, hexpand, hfactor, hdefault hends⟩

end Request

end Reckoner
