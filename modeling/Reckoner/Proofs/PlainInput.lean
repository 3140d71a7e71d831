/-
**Plain notation is answered with its value.**

A line of input goes through the steps that bring LaTeX to plain notation, and then it is searched
for a request.  The text of an expression passes all of this untouched.  It has no macro and no
brace; between its neighbours no product is implied; a sign of division in it is behind a blank,
so that no quotient of differentials is found; and what stands in front of its first bracket is a
function, so that no keyword is found either.  The answer is the value of the expression.

Names have to be free of digits that are directly followed by a letter, since a product is implied
there.  The name of a function is, and so is every number.

Main definitions:

* `Reckoner.Canonical.Inert` — texts in which there is nothing to change and no differential;
* `Reckoner.Expr.UnbrokenName` — names without a digit in front of a letter.

Main results:

* `Reckoner.Canonical.Inert.normalizeChars` — an inert text is its own canonical text;
* `Reckoner.Expr.inert_text` — the text of an expression is inert;
* `Reckoner.Expr.classify_text` — **the text of an expression asks for its value**;
* `Reckoner.answer_text` — **the answer to the text of an expression is its value**, or the symbol
  that has none.
-/

import Reckoner.Proofs.Markup
import Reckoner.Proofs.ShortestText
import Reckoner.Request.Run

set_option autoImplicit false

namespace Reckoner

open Notation (Spells Numeral isPlainName)
open Text (after?)

/-! ### Texts that stay as they are -/

namespace Canonical

variable {s t : List Char} {c d : Char}

/-- Neighbours between which no product is implied and no differential is divided. -/
def settled (c d : Char) : Bool := apart c d && !((c == 'd' || c == ')') && d == '/')

/-- A text without macros and braces, all of whose neighbours are settled. -/
structure Inert (t : List Char) : Prop where
  characters : ∀ c ∈ t, c ≠ '\\' ∧ c ≠ '\x7b' ∧ c ≠ '\x7d'
  neighbours : t.IsChain fun c d => settled c d = true

theorem Inert.explicit (h : Inert t) : Explicit t :=
  h.neighbours.imp fun _ _ hcd => (Bool.and_eq_true_iff.1 hcd).1

/-- An inert text is its own canonical text. -/
theorem Inert.normalizeChars (h : Inert t) : normalizeChars t = t := by
  rw [(Writes.text h.characters).normalizeChars, h.explicit.insertProducts]

theorem Inert.normalize {x : String} (h : Inert x.toList) : normalize x = x := by
  rw [Reckoner.normalize, h.normalizeChars, String.ofList_toList]

/-! ### Inert texts put together -/

theorem settled_of_left (hc : Text.isDecimalDigit c = false) (hd : c ≠ 'd') (hb : c ≠ ')')
    (d : Char) : settled c d = true := by
  simp [settled, apart_of_left hc hb, hd, hb]

theorem settled_of_right (hl : Text.isLatinLetter d = false) (ho : d ≠ '(') (hd : d ≠ '/')
    (c : Char) : settled c d = true := by
  simp [settled, apart_of_right hl ho, hd]

theorem settled_open (d : Char) : settled '(' d = true :=
  settled_of_left (by decide) (by decide) (by decide) d

theorem settled_close (c : Char) : settled c ')' = true :=
  settled_of_right (by decide) (by decide) (by decide) c

theorem settled_blank (c : Char) : settled ' ' c = true ∧ settled c ' ' = true :=
  ⟨settled_of_left (by decide) (by decide) (by decide) c,
    settled_of_right (by decide) (by decide) (by decide) c⟩

/-- Two inert texts whose ends are settled. -/
theorem Inert.append (hs : Inert s) (ht : Inert t)
    (h : ∀ c ∈ s.getLast?, ∀ d ∈ t.head?, settled c d = true) : Inert (s ++ t) :=
  ⟨List.forall_mem_append.2 ⟨hs.characters, ht.characters⟩,
    List.isChain_append.2 ⟨hs.neighbours, ht.neighbours, h⟩⟩

theorem inert_singleton (h : c ≠ '\\' ∧ c ≠ '\x7b' ∧ c ≠ '\x7d') : Inert [c] :=
  ⟨by simpa using h, List.isChain_singleton c⟩

/-- Brackets around an inert text. -/
theorem Inert.group (ht : Inert t) : Inert ('(' :: (t ++ [')'])) := by
  have hclosed : Inert (t ++ [')']) := by
    refine ht.append (inert_singleton (by decide)) fun c _ d hd => ?_
    obtain rfl := Option.some.inj hd
    exact settled_close c
  refine Inert.append (s := ['(']) (inert_singleton (by decide)) hclosed fun c hc d _ => ?_
  obtain rfl := Option.some.inj hc
  exact settled_open d

/-- Two inert texts with an operator between blanks. -/
theorem Inert.joined (hs : Inert s) (hc : isSeparator c = true) (ht : Inert t) :
    Inert (s ++ ' ' :: c :: ' ' :: t) := by
  have hoperator : Inert [' ', c, ' '] := by
    rcases mem_separators hc with rfl | rfl | rfl | rfl | rfl | rfl <;>
      exact ⟨by simp, by decide⟩
  have hbehind : Inert ([' ', c, ' '] ++ t) := by
    refine hoperator.append ht fun d hd e _ => ?_
    obtain rfl : ' ' = d := by simpa using hd
    exact (settled_blank e).1
  refine hs.append hbehind fun d _ e he => ?_
  obtain rfl : ' ' = e := by simpa using he
  exact (settled_blank d).2

/-- Digits and points, with or without a minus. -/
theorem inert_of_digits (h : ∀ c ∈ t, c.isDigit = true ∨ c = '.' ∨ c = '-') : Inert t := by
  have hkind : ∀ c ∈ t, Text.isLatinLetter c = false ∧ c ≠ '(' ∧ c ≠ '/' ∧ c ≠ '\\' ∧
      c ≠ '\x7b' ∧ c ≠ '\x7d' := by
    intro c hc
    rcases h c hc with hdigit | rfl | rfl
    · have hcode := Text.toNat_of_isDigit hdigit
      refine ⟨?_, ?_, ?_, ?_, ?_, ?_⟩
      · rw [Bool.eq_false_iff]
        intro hletter
        have := Text.toNat_of_isAlpha hletter
        omega
      all_goals
        rintro rfl
        exact absurd hcode (by decide)
    · decide
    · decide
  refine ⟨fun c hc => (hkind c hc).2.2.2, ?_⟩
  induction t with
  | nil => exact .nil
  | cons c t ih =>
      obtain ⟨-, ht⟩ := List.forall_mem_cons.1 hkind
      refine List.isChain_cons.2 ⟨fun d hd => ?_, ih (fun c hc => h c (.tail _ hc)) ht⟩
      obtain ⟨hl, ho, hs, -⟩ := ht d (List.mem_of_mem_head? hd)
      exact settled_of_right hl ho hs c

/-- The name of a function in front of its argument. -/
theorem Inert.call (f : Elementary) (ht : Inert t) :
    Inert (f.name.toList ++ '(' :: (t ++ [')'])) := by
  have hname : Inert f.name.toList ∧
      (f.name.toList.getLast?.all fun c => settled c '(') = true := by
    cases f <;> exact ⟨⟨by simp [Elementary.name], by decide⟩, by decide⟩
  refine hname.1.append ht.group fun c hc d hd => ?_
  obtain rfl := Option.some.inj hd
  exact (Option.all_eq_true _ _).1 hname.2 c hc

end Canonical

/-! ### Requests -/

namespace Request

variable {t : List Char}

/-- A sign of division is neither behind the letter of a differential nor behind its bracket. -/
theorem after?_slash (h : Canonical.Inert ('d' :: t)) : after? ['/'] (skip ')' t) = none := by
  have neighbour {c d : Char} {r : List Char} (hc : c = 'd' ∨ c = ')')
      (h : List.IsChain (fun c d => Canonical.settled c d = true) (c :: d :: r)) : '/' ≠ d := by
    rintro rfl
    have := (List.isChain_cons_cons.1 h).1
    rcases hc with rfl | rfl <;> simp [Canonical.settled] at this
  cases t with
  | nil => rfl
  | cons c t =>
      by_cases hc : ')' = c
      · subst hc
        cases t with
        | nil => rfl
        | cons d t => simp [skip, after?, neighbour (.inr rfl) h.neighbours.tail]
      · simp [skip, after?, hc, neighbour (.inl rfl) h.neighbours]

/-- An inert text is no derivative by differentials. -/
theorem differentialForm?_eq_none (h : Canonical.Inert t) : differentialForm? t = none := by
  suffices hnone : differentials? t = none by rw [differentialForm?, hnone]; rfl
  have hskip : Canonical.Inert (skip '(' t) := by
    cases t with
    | nil => exact h
    | cons c t =>
        by_cases hc : '(' = c
        · subst hc
          exact ⟨(List.forall_mem_cons.1 h.characters).2, h.neighbours.tail⟩
        · simpa [skip, after?, hc] using h
  unfold differentials?
  generalize skip '(' t = u at hskip
  cases u with
  | nil => rfl
  | cons c u =>
      by_cases hd : 'd' = c
      · subst hd
        simp [after?, after?_slash hskip]
      · simp [after?, hd]

/-- The words that ask for something else than a value. -/
def keywords : List String := ["derivative", "simplify", "expand", "factor", "solve", "limit"]

/-- Without a word in front and without differentials, a text asks for its value. -/
theorem classifyChars_eq_evaluate (default : String) (h : Canonical.Inert t)
    (hword : ∀ k ∈ keywords, after? (k.toList ++ ['(']) t = none) :
    classifyChars default t = .evaluate (String.ofList t) := by
  have harguments : ∀ k ∈ keywords, arguments? k t = none := by
    intro k hk
    rw [arguments?, hword k hk]
    rfl
  simp [keywords] at harguments
  simp [classifyChars, differentialForm?_eq_none h, derivativeForm?, simpleForm?, solveForm?,
    limitForm?, harguments]

end Request

/-! ### The text of an expression -/

namespace Expr

variable {κ : Type} [Number κ] {e : Expr κ}

/-- A name in ASCII in which no digit is directly followed by a letter. -/
def UnbrokenName (x : String) : Prop :=
  isPlainName x.toList = true ∧ x.toList.IsChain fun c d => ¬(c.isDigit = true ∧ d.isAlpha = true)

instance (x : String) : Decidable (UnbrokenName x) := inferInstanceAs (Decidable (_ ∧ _))

theorem toNat_lt_of_isPlainName {cs : List Char} (h : isPlainName cs = true) :
    ∀ c ∈ cs, c.toNat < 0x80 := by
  intro c hc
  have hword := (Notation.word_name h).chars c hc
  simp only [Notation.isWordChar, Char.isAlphanum, Bool.or_eq_true, beq_iff_eq] at hword
  rcases hword with ((ha | hd) | rfl) | rfl
  · have := Text.toNat_of_isAlpha ha
    omega
  · have := Text.toNat_of_isDigit hd
    omega
  · decide
  · decide

/-- A number is written with digits and points, in brackets if there is a minus in front. -/
def WrittenInDigits (c : κ) : Prop :=
  ∃ t, (∀ d ∈ t, d.isDigit = true ∨ d = '.' ∨ d = '-') ∧
    ((constText c).toList = t ∨ (constText c).toList = '(' :: (t ++ [')']))

theorem UnbrokenName.inert {x : String} (h : UnbrokenName x) : Canonical.Inert x.toList := by
  obtain ⟨hname, hchain⟩ := h
  have hne {d : Char} (hd : Notation.isWordChar d = false) : ∀ c ∈ x.toList, c ≠ d :=
    fun c hc => Notation.ne_of_isWordChar ((Notation.word_name hname).chars c hc) hd
  refine ⟨fun c hc => ⟨hne rfl c hc, hne rfl c hc, hne rfl c hc⟩, ?_⟩
  refine hchain.imp_of_mem_imp fun c d hc hd hcd => ?_
  -- a decimal digit in ASCII is a digit, and no letter follows it
  have hdigit : (Text.isDecimalDigit c && Text.isLatinLetter d) = false := by
    rw [Bool.eq_false_iff, Ne, Bool.and_eq_true]
    rintro ⟨hdecimal, hletter⟩
    exact hcd ⟨Text.isDigit_of_isDecimalDigit (toNat_lt_of_isPlainName hname c hc) hdecimal, hletter⟩
  simp [Canonical.settled, Canonical.apart, hdigit, hne (d := ')') rfl c hc,
    hne (d := '/') rfl d hd]

/-- **The text of an expression is inert.** -/
theorem inert_text (names : OnlyNames UnbrokenName e) (numbers : OnlyNumbers WrittenInDigits e) :
    Canonical.Inert e.text.toList := by
  induction e with
  | var x => exact (onlyNames_var.1 names).inert
  | const c =>
      obtain ⟨t, ht, htext | htext⟩ : WrittenInDigits c := numbers
      · rw [text, htext]
        exact Canonical.inert_of_digits ht
      · rw [text, htext]
        exact (Canonical.inert_of_digits ht).group
  | add a b iha ihb =>
      obtain ⟨ha, hb⟩ := onlyNames_add.1 names
      simpa [text] using ((iha ha numbers.1).joined (c := '+') rfl (ihb hb numbers.2)).group
  | sub a b iha ihb =>
      obtain ⟨ha, hb⟩ := onlyNames_sub.1 names
      simpa [text] using ((iha ha numbers.1).joined (c := '-') rfl (ihb hb numbers.2)).group
  | mul a b iha ihb =>
      obtain ⟨ha, hb⟩ := onlyNames_mul.1 names
      simpa [text] using ((iha ha numbers.1).joined (c := '*') rfl (ihb hb numbers.2)).group
  | div a b iha ihb =>
      obtain ⟨ha, hb⟩ := onlyNames_div.1 names
      simpa [text] using ((iha ha numbers.1).joined (c := '/') rfl (ihb hb numbers.2)).group
  | pow a b iha ihb =>
      obtain ⟨ha, hb⟩ := onlyNames_pow.1 names
      simpa [text] using ((iha ha numbers.1).joined (c := '^') rfl (ihb hb numbers.2)).group
  | apply f a ih =>
      simpa [text] using (ih (onlyNames_apply.1 names) numbers).call f

/-- **In front of the first bracket there is no word that asks for something else.** -/
theorem after?_keyword_text (names : OnlyNames UnbrokenName e)
    (numbers : OnlyNumbers WrittenInDigits e) :
    ∀ k ∈ Request.keywords, after? (k.toList ++ ['(']) e.text.toList = none := by
  intro k hk
  rw [Option.eq_none_iff_forall_ne_some]
  intro r hr
  have htext : e.text.toList = k.toList ++ '(' :: r := by simpa using Text.after?_eq hr
  have hopen : '(' ∈ e.text.toList := by simp [htext]
  obtain ⟨c, k', hk', hc⟩ : ∃ c k', k.toList = c :: k' ∧ c ≠ '(' := by
    simp only [Request.keywords, List.mem_cons, List.not_mem_nil, or_false] at hk
    rcases hk with rfl | rfl | rfl | rfl | rfl | rfl <;> exact ⟨_, _, rfl, by decide⟩
  -- a text that is in brackets begins with one
  have hbracket {t : List Char} (h : e.text.toList = '(' :: t) : False := by
    rw [h, hk', List.cons_append] at htext
    exact hc (List.cons.inj htext).1.symm
  cases e with
  | var x =>
      exact (Notation.word_name (onlyNames_var.1 names).1).ne_open _ hopen rfl
  | const c =>
      obtain ⟨t, ht, htext | htext⟩ : WrittenInDigits c := numbers
      · rw [text, htext] at hopen
        exact absurd (ht '(' hopen) (by decide)
      · exact hbracket (by rw [text, htext])
  | add a b | sub a b | mul a b | div a b | pow a b =>
      exact hbracket (by simp only [text, String.toList_append]; rfl)
  | apply f a =>
      have hnames : f.name.toList ++ '(' :: (a.text.toList ++ [')']) = k.toList ++ '(' :: r := by
        simpa [text] using htext
      have hname : (f.name.toList.all (· != '(')) = true := by cases f <;> decide
      have hword : (k.toList.all (· != '(')) = true := by
        simp only [Request.keywords, List.mem_cons, List.not_mem_nil, or_false] at hk
        rcases hk with rfl | rfl | rfl | rfl | rfl | rfl <;> decide
      have heq := (Text.append_inj_of_run (List.all_eq_true.1 hname) (List.all_eq_true.1 hword)
        (by simp) (by simp) hnames).1
      simp only [Request.keywords, List.mem_cons, List.not_mem_nil, or_false] at hk
      rcases hk with rfl | rfl | rfl | rfl | rfl | rfl <;> cases f <;> exact absurd heq (by decide)

/-- **The text of an expression asks for its value.** -/
theorem classify_text (default : String) (names : OnlyNames UnbrokenName e)
    (numbers : OnlyNumbers WrittenInDigits e) (htrim : Text.trim e.text.toList = e.text.toList) :
    Request.classify default e.text = .evaluate e.text := by
  rw [Request.classify, htrim, Request.classifyChars_eq_evaluate default
    (inert_text names numbers) (after?_keyword_text names numbers), String.ofList_toList]

/-- A finite binary number other than a negative zero is written in digits. -/
theorem writtenInDigits {x : Float} (hfinite : Arithmetic.isFinite x = true)
    (hzero : Binary64.isNegativeZero x = false) : WrittenInDigits x := by
  obtain ⟨cs, n, p, hn, htext⟩ := Binary64.text_of_isFinite hfinite hzero
  have hcs : ∀ d ∈ cs, d.isDigit = true ∨ d = '.' ∨ d = '-' :=
    fun d hd => (hn.digit_or_point d hd).imp_right .inl
  -- the minus is inside the brackets
  obtain ⟨t, ht, hnumber⟩ : ∃ t, (∀ d ∈ t, d.isDigit = true ∨ d = '.' ∨ d = '-') ∧
      (Number.text x).toList = t := by
    rcases htext with htext | ⟨htext, -⟩
    · exact ⟨cs, hcs, htext⟩
    · exact ⟨_, List.forall_mem_cons.2 ⟨.inr (.inr rfl), hcs⟩, htext⟩
  refine ⟨t, ht, ?_⟩
  unfold constText
  split
  · exact .inr (by simpa using hnumber)
  · exact .inl hnumber

end Expr

/-- An expression of legible numbers is answered with its value. -/
theorem answer_text_of_legible {κ : Type} [Number κ] (default : String) {e : Expr κ}
    (names : e.OnlyNames Expr.UnbrokenName) (digits : e.OnlyNumbers Expr.WrittenInDigits)
    (legible : e.OnlyNumbers Legible) :
    (∀ v, e.eval Scope.empty = .ok v →
      (answer default e.text : Answer κ).text = (Number.reading v).format) ∧
    ∀ s, e.eval Scope.empty = .error ⟨s⟩ →
      (answer default e.text : Answer κ).text = "Error: Undefined symbol " ++ s := by
  have plain : e.OnlyNames fun x => isPlainName x.toList = true := fun x hx => (names x hx).1
  have hspells := Expr.spells_text plain legible
  have hparse : parseExpr e.text = .ok e := by
    rw [parseExpr, Expr.parse_text_of_legible plain legible]
    rfl
  have hclassify := Expr.classify_text default names digits hspells.trim_eq
  have hanswer : (answer default e.text : Answer κ).result =
      (e.value Scope.empty).map fun v => (Number.reading v).format := by
    simp only [answer, (Expr.inert_text names digits).normalize, hclassify, Request.run, runOn,
      hparse]
    rfl
  constructor
  · intro v hv
    rw [Answer.text, hanswer, Expr.value, hv]
    rfl
  · intro s hs
    rw [Answer.text, hanswer, Expr.value, hs]
    rfl

/-- **The answer to the text of an expression is its value**, in the format of numbers, or the
first symbol that has none. -/
theorem answer_text (default : String) {e : Expr Float} (names : e.OnlyNames Expr.UnbrokenName)
    (numbers : e.OnlyNumbers
      (fun c => Arithmetic.isFinite c = true ∧ Binary64.isNegativeZero c = false)) :
    (∀ v, e.eval Scope.empty = .ok v →
      (answer default e.text : Answer Float).text = (Number.reading v).format) ∧
    ∀ s, e.eval Scope.empty = .error ⟨s⟩ →
      (answer default e.text : Answer Float).text = "Error: Undefined symbol " ++ s := by
  have digits : e.OnlyNumbers Expr.WrittenInDigits :=
    numbers.imp fun c hc => Expr.writtenInDigits hc.1 hc.2
  have legible : e.OnlyNumbers Legible :=
    numbers.imp fun c hc => Binary64.legible hc.1 hc.2 (Binary64.readsBack hc.1 hc.2)
  exact answer_text_of_legible default names digits legible

/-- A sum and a quotient of numbers, and one symbol. -/
def shiftOver (x : String) : Expr Float := .div (.sub (.const 0.1) (.const (-2))) (.var x)

/-- `((0.1 - (-2)) / pi)` has a value, and `((0.1 - (-2)) / x_1)` has none. -/
theorem answer_text_shiftOver :
    (shiftOver "x_1").text = "((0.1 - (-2)) / x_1)" ∧
      (answer "x" (shiftOver "pi").text : Answer Float).text = "0.668451" ∧
      (answer "x" (shiftOver "x_1").text : Answer Float).text =
        "Error: Undefined symbol x_1" := by
  have names {x : String} (hx : Expr.UnbrokenName x) :
      (shiftOver x).OnlyNames Expr.UnbrokenName := by
    simp only [shiftOver, Expr.onlyNames_div, Expr.onlyNames_sub, Expr.onlyNames_var,
      Expr.onlyNames_const]
    exact ⟨⟨trivial, trivial⟩, hx⟩
  have numbers (x : String) : (shiftOver x).OnlyNumbers
      (fun c => Arithmetic.isFinite c = true ∧ Binary64.isNegativeZero c = false) := by
    refine ⟨⟨⟨?_, ?_⟩, ?_, ?_⟩, trivial⟩ <;> decide
  refine ⟨by decide, ?_, ?_⟩
  · rw [(answer_text "x" (names (by decide)) (numbers "pi")).1 _ rfl]
    decide +kernel
  · exact (answer_text "x" (names (by decide)) (numbers "x_1")).2 _ rfl

end Reckoner
