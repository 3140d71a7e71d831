/-
**The text of an expression determines the expression.**

Like terms are told apart by the texts of their atoms, so simplification is right only if
different atoms have different texts.  They do when the names in them are identifiers: every
operation is in brackets, and what follows a part of an expression never continues a name or a
number.

The proof reads an expression off the front of a text.  Of the twenty kinds of expressions only
four forms of text have to be told apart: a name, a number, two parts joined by an operator in
brackets, and a name in front of an argument in brackets.

Main definitions:

* `Reckoner.Expr.IsName` — the names of variables that are identifiers;
* `Reckoner.Expr.Form` — the forms of text;
* `Reckoner.Expr.EndsPart` — what may follow a part of an expression.

Main results:

* `Reckoner.Expr.reading_unique` — only one expression can be read off the front of a text;
* `Reckoner.Expr.text_inj` — **expressions of one text are the same**.
-/

import Reckoner.Proofs.Characters
import Reckoner.Proofs.Exact
import Reckoner.Proofs.Symbols

set_option autoImplicit false

namespace Reckoner.Expr

open Text (isLetter isNameChar isDelimiter append_inj_of_run)

variable {κ : Type}

/-- A name that is an identifier. -/
def IsName (x : String) : Prop := Notation.isIdentifier x.toList = true

instance (x : String) : Decidable (IsName x) := inferInstanceAs (Decidable (_ = true))

/-! ### Forms of text -/

/-- The forms of text of an expression. -/
inductive Form (κ : Type)
  | name (x : String)
  | number (c : κ)
  | joined (op : Char) (a b : Expr κ)
  | call (f : Elementary) (a : Expr κ)

/-- The form of the text of an expression. -/
def form : Expr κ → Form κ
  | .var x => .name x
  | .const c => .number c
  | .add a b => .joined '+' a b
  | .sub a b => .joined '-' a b
  | .mul a b => .joined '*' a b
  | .div a b => .joined '/' a b
  | .pow a b => .joined '^' a b
  | .apply f a => .call f a

theorem form_injective : Function.Injective (form (κ := κ)) := by
  intro a b h
  cases a <;> cases b <;> simp_all [form]

variable [Number κ]

/-- The text of a form. -/
def Form.chars : Form κ → List Char
  | .name x => x.toList
  | .number c => (constText c).toList
  | .joined op a b => '(' :: (a.text.toList ++ ' ' :: op :: ' ' :: (b.text.toList ++ [')']))
  | .call f a => f.name.toList ++ '(' :: (a.text.toList ++ [')'])

/-- The text of an expression is the text of its form. -/
theorem toList_text (e : Expr κ) : e.text.toList = e.form.chars := by
  cases e <;> simp [text, form, Form.chars]

/-! ### The front of a text -/

/-- What may follow a part of an expression: a blank, a closing bracket or nothing. -/
def EndsPart (r : List Char) : Prop := ∀ c ∈ r.head?, c = ' ' ∨ c = ')'

theorem endsPart_nil : EndsPart [] := by simp [EndsPart]

theorem endsPart_blank (r : List Char) : EndsPart (' ' :: r) := by simp [EndsPart]

theorem endsPart_close (r : List Char) : EndsPart (')' :: r) := by simp [EndsPart]

/-- A name does not go on in what follows it. -/
theorem EndsPart.not_isNameChar {r : List Char} (h : EndsPart r) :
    ∀ c ∈ r.head?, isNameChar c = false := by
  intro c hc
  refine Text.not_isNameChar_of_isDelimiter ?_
  rcases h c hc with rfl | rfl <;> decide

/-- A character of a number. -/
def isNumberChar (c : Char) : Bool := c.isDigit || c == '.'

/-- A number does not go on in what follows it. -/
theorem EndsPart.not_isNumberChar {r : List Char} (h : EndsPart r) :
    ∀ c ∈ r.head?, isNumberChar c = false := by
  intro c hc
  rcases h c hc with rfl | rfl <;> decide

omit [Number κ] in
theorem isIdentifier_name (f : Elementary) : Notation.isIdentifier f.name.toList = true := by
  cases f <;> decide +kernel

/-- The text of an exact number: digits and points, in brackets behind a minus if it is
negative. -/
theorem constText_form [ExactNumber κ] (c : κ) : ∃ ds, IsDigitRun ds ∧
    (constText c).toList = if Number.value c < 0 then '(' :: '-' :: (ds ++ [')']) else ds := by
  obtain ⟨ds, hds, htext⟩ := ExactNumber.text_form c
  refine ⟨ds, hds, ?_⟩
  unfold constText
  by_cases hc : Number.value c < 0
  · rw [if_pos (isNegative_iff.2 hc), if_pos hc]
    simp [htext, hc]
  · rw [if_neg (mt isNegative_iff.1 hc), if_neg hc]
    simp [htext, hc]

/-! ### First characters -/

omit [Number κ] in
theorem exists_letter_cons {cs : List Char} (h : Notation.isIdentifier cs = true) :
    ∃ c t, cs = c :: t ∧ isLetter c = true := by
  obtain ⟨c, t, h, hc, -⟩ := Text.isIdentifier_iff.1 h
  exact ⟨c, t, h, hc⟩

theorem exists_numberChar_cons {ds : List Char} (h : IsDigitRun ds) :
    ∃ d t, ds = d :: t ∧ isNumberChar d = true := by
  cases ds with
  | nil => exact absurd rfl h.1
  | cons d t => exact ⟨d, t, rfl, by simpa [isNumberChar] using h.2 d List.mem_cons_self⟩

theorem isNumberChar_of_mem {ds : List Char} (h : IsDigitRun ds) :
    ∀ d ∈ ds, isNumberChar d = true := by
  intro d hd
  simpa [isNumberChar] using h.2 d hd

theorem not_isLetter_of_isNumberChar {c : Char} (h : isNumberChar c = true) :
    isLetter c = false := by
  rcases Bool.or_eq_true_iff.1 h with h | h
  · exact Text.isLetter_of_isDigit h
  · rw [eq_of_beq h]
    exact Text.isLetter_of_lt (by decide)

theorem not_isLetter_bracket : isLetter '(' = false := Text.isLetter_of_lt (by decide)

variable {a b : Expr κ}

/-- All names in an expression are identifiers. -/
abbrev Named (e : Expr κ) : Prop := OnlyNames IsName e

omit [Number κ] in
/-- The parts of a form have only such names. -/
theorem Named.form (h : Named a) : match a.form with
    | .name x => IsName x
    | .number _ => True
    | .joined _ b c => Named b ∧ Named c
    | .call _ b => Named b := by
  cases a <;> simp_all [Expr.form]

variable [ExactNumber κ]

/-- No text of an expression starts with a minus. -/
theorem text_ne_minus (h : Named a) (t r : List Char) : a.text.toList ++ r ≠ '-' :: t := by
  rw [toList_text]
  have parts := h.form
  intro ht
  cases ha : a.form with
  | name x =>
      rw [ha] at parts ht
      obtain ⟨c, u, hx, hc⟩ := exists_letter_cons parts
      simp only [Form.chars, hx, List.cons_append, List.cons.injEq] at ht
      rw [ht.1, Text.isLetter_of_lt (by decide)] at hc
      simp at hc
  | number c =>
      rw [ha] at ht
      obtain ⟨ds, hds, hc⟩ := constText_form c
      obtain ⟨d, u, rfl, hd⟩ := exists_numberChar_cons hds
      simp only [Form.chars, hc] at ht
      split at ht
      · simp at ht
      · rw [(List.cons.inj ht).1] at hd
        simp [isNumberChar] at hd
  | joined op b c => simp [ha, Form.chars] at ht
  | call f b =>
      rw [ha] at ht
      obtain ⟨c, u, hx, hc⟩ := exists_letter_cons (isIdentifier_name f)
      simp only [Form.chars, hx, List.cons_append, List.cons.injEq] at ht
      rw [ht.1, Text.isLetter_of_lt (by decide)] at hc
      simp at hc

/-! ### Reading an expression off the front of a text -/

/-- Only one expression can be read where `a` can be read. -/
def ReadsUniquely (a : Expr κ) : Prop :=
  ∀ (b : Expr κ) (r s : List Char), Named b → EndsPart r → EndsPart s →
    a.text.toList ++ r = b.text.toList ++ s → a = b ∧ r = s

theorem readsUniquely_name {x : String} (hx : IsName x) : ReadsUniquely (.var x : Expr κ) := by
  intro b r s hb hr hs h
  obtain ⟨c, t, hxc, hc⟩ := exists_letter_cons hx
  rw [toList_text, toList_text] at h
  have parts := hb.form
  cases hf : b.form with
  | name y =>
      rw [hf] at parts h
      obtain ⟨hxy, hrs⟩ := append_inj_of_run (Text.isNameChar_of_mem hx)
        (Text.isNameChar_of_mem parts) hr.not_isNameChar hs.not_isNameChar h
      refine ⟨form_injective ?_, hrs⟩
      rw [hf, String.toList_inj.1 hxy]
      rfl
  | number d =>
      rw [hf] at h
      obtain ⟨ds, hds, hd⟩ := constText_form d
      obtain ⟨d', u, rfl, hd'⟩ := exists_numberChar_cons hds
      simp only [form, Form.chars, hxc, hd] at h
      split at h
      · rw [(List.cons.inj h).1, not_isLetter_bracket] at hc
        simp at hc
      · rw [(List.cons.inj h).1, not_isLetter_of_isNumberChar hd'] at hc
        simp at hc
  | joined op b₁ b₂ =>
      rw [hf] at h
      simp only [form, Form.chars, hxc, List.cons_append, List.cons.injEq] at h
      rw [h.1, not_isLetter_bracket] at hc
      simp at hc
  | call f b₁ =>
      rw [hf] at h
      simp only [form, Form.chars, List.append_assoc, List.cons_append] at h
      have := (append_inj_of_run (Text.isNameChar_of_mem hx)
        (Text.isNameChar_of_mem (isIdentifier_name f)) hr.not_isNameChar
        (by simp [Text.not_isNameChar_of_isDelimiter (c := '(') (by decide)]) h).2
      rw [this] at hr
      simp [EndsPart] at hr

/-- No run of digits starts with a bracket. -/
theorem digitRun_append_ne {ds : List Char} (h : IsDigitRun ds) (r t : List Char) :
    ds ++ r ≠ '(' :: t := by
  obtain ⟨d, u, rfl, hd⟩ := exists_numberChar_cons h
  intro heq
  rw [(List.cons.inj heq).1] at hd
  simp [isNumberChar] at hd

/-- A number ends where its digits end, or with its bracket. -/
theorem constText_append_inj {c d : κ} {r s : List Char} (hr : EndsPart r) (hs : EndsPart s)
    (h : (constText c).toList ++ r = (constText d).toList ++ s) : c = d ∧ r = s := by
  obtain ⟨ds, hds, hc⟩ := ExactNumber.text_form c
  obtain ⟨es, hes, hd⟩ := ExactNumber.text_form d
  have close : ∀ {t : List Char}, ∀ c ∈ (')' :: t).head?, isNumberChar c = false := by
    rintro t c hc
    rw [← Option.some.inj hc]
    decide
  suffices hcd : (Number.text c).toList = (Number.text d).toList ∧ r = s from
    ⟨ExactNumber.text_injective (String.toList_inj.1 hcd.1), hcd.2⟩
  simp only [constText, isNegative_iff] at h
  by_cases hcn : Number.value c < 0 <;> by_cases hdn : Number.value d < 0
  · simp only [if_pos hcn, if_pos hdn] at h hc hd
    rw [String.toList_append, String.toList_append, String.toList_append, String.toList_append,
      hc, hd] at h
    have hrun : ds ++ ')' :: r = es ++ ')' :: s := by simpa using h
    obtain ⟨hrun, hrest⟩ := append_inj_of_run (isNumberChar_of_mem hds) (isNumberChar_of_mem hes)
      close close hrun
    exact ⟨by rw [hc, hd, hrun], (List.cons.inj hrest).2⟩
  · simp only [if_pos hcn, if_neg hdn] at h hd
    rw [hd, String.toList_append, String.toList_append] at h
    exact absurd h.symm (digitRun_append_ne hes _ _)
  · simp only [if_neg hcn, if_pos hdn] at h hc
    rw [hc, String.toList_append, String.toList_append] at h
    exact absurd h (digitRun_append_ne hds _ _)
  · simp only [if_neg hcn, if_neg hdn] at h hc hd
    rw [hc, hd] at h ⊢
    exact append_inj_of_run (isNumberChar_of_mem hds) (isNumberChar_of_mem hes)
      hr.not_isNumberChar hs.not_isNumberChar h

theorem readsUniquely_number (c : κ) : ReadsUniquely (.const c : Expr κ) := by
  intro b r s hb hr hs h
  rw [toList_text, toList_text] at h
  have parts := hb.form
  obtain ⟨ds, hds, hc⟩ := constText_form c
  obtain ⟨x, t, rfl, hx⟩ := exists_numberChar_cons hds
  -- a text that starts with a letter is none of a number
  have letter : ∀ {z : Char} {u u' : List Char}, isLetter z = true →
      (constText c).toList ++ u ≠ z :: u' := by
    intro z u u' hz heq
    rw [hc] at heq
    split at heq
    · rw [← (List.cons.inj heq).1, not_isLetter_bracket] at hz
      simp at hz
    · rw [← (List.cons.inj heq).1, not_isLetter_of_isNumberChar hx] at hz
      simp at hz
  cases hf : b.form with
  | name y =>
      rw [hf] at parts h
      obtain ⟨z, u, hy, hz⟩ := exists_letter_cons parts
      simp only [form, Form.chars, hy, List.cons_append] at h
      exact absurd h (letter hz)
  | number d =>
      rw [hf] at h
      obtain ⟨rfl, hrs⟩ := constText_append_inj hr hs h
      exact ⟨form_injective (by rw [hf]; rfl), hrs⟩
  | joined op b₁ b₂ =>
      rw [hf] at parts h
      simp only [form, Form.chars, hc] at h
      split at h
      · simp only [List.cons_append, List.append_assoc, List.cons.injEq, true_and] at h
        exact absurd h.symm (text_ne_minus parts.1 _ _)
      · rw [(List.cons.inj h).1] at hx
        simp [isNumberChar] at hx
  | call f b₁ =>
      rw [hf] at h
      obtain ⟨z, u, hy, hz⟩ := exists_letter_cons (isIdentifier_name f)
      simp only [form, Form.chars, hy, List.cons_append] at h
      exact absurd h (letter hz)

theorem readsUniquely_joined {e a₁ a₂ : Expr κ} {op : Char} (hf : e.form = .joined op a₁ a₂)
    (named : Named a₁) (h₁ : ReadsUniquely a₁) (h₂ : ReadsUniquely a₂) : ReadsUniquely e := by
  intro b r s hb hr hs h
  rw [toList_text, toList_text, hf] at h
  have parts := hb.form
  cases hg : b.form with
  | name y =>
      rw [hg] at parts h
      obtain ⟨z, u, hy, hz⟩ := exists_letter_cons parts
      simp only [Form.chars, hy, List.cons_append, List.cons.injEq] at h
      rw [← h.1, not_isLetter_bracket] at hz
      simp at hz
  | number d =>
      rw [hg] at h
      obtain ⟨ds, hds, hd⟩ := constText_form d
      obtain ⟨x, t, rfl, hx⟩ := exists_numberChar_cons hds
      simp only [Form.chars, hd] at h
      split at h
      · simp only [List.cons_append, List.append_assoc, List.cons.injEq, true_and] at h
        exact absurd h (text_ne_minus named _ _)
      · rw [← (List.cons.inj h).1] at hx
        simp [isNumberChar] at hx
  | joined op' b₁ b₂ =>
      rw [hg] at parts h
      simp only [Form.chars, List.cons_append, List.append_assoc, List.cons.injEq, true_and,
        List.nil_append] at h
      obtain ⟨rfl, hrest⟩ := h₁ b₁ _ _ parts.1 (endsPart_blank _) (endsPart_blank _) h
      simp only [List.cons.injEq, true_and] at hrest
      obtain ⟨rfl, hrest⟩ := hrest
      obtain ⟨rfl, hclose⟩ := h₂ b₂ _ _ parts.2 (endsPart_close r) (endsPart_close s) hrest
      exact ⟨form_injective (hf.trans hg.symm), (List.cons.inj hclose).2⟩
  | call f b₁ =>
      rw [hg] at h
      obtain ⟨z, u, hy, hz⟩ := exists_letter_cons (isIdentifier_name f)
      simp only [Form.chars, hy, List.cons_append, List.cons.injEq] at h
      rw [← h.1, not_isLetter_bracket] at hz
      simp at hz

theorem readsUniquely_call (f : Elementary) (ih : ReadsUniquely a) :
    ReadsUniquely (.apply f a) := by
  intro b r s hb hr hs h
  rw [toList_text, toList_text] at h
  have parts := hb.form
  have opens : ∀ {t : List Char}, ∀ c ∈ ('(' :: t).head?, isNameChar c = false := by
    rintro t c hc
    rw [← Option.some.inj hc]
    exact Text.not_isNameChar_of_isDelimiter (by decide)
  obtain ⟨z, u, hy, hz⟩ := exists_letter_cons (isIdentifier_name f)
  cases hg : b.form with
  | name y =>
      rw [hg] at parts h
      simp only [form, Form.chars, List.append_assoc, List.cons_append] at h
      have := (append_inj_of_run (Text.isNameChar_of_mem (isIdentifier_name f))
        (Text.isNameChar_of_mem parts) opens hs.not_isNameChar h).2
      rw [← this] at hs
      simp [EndsPart] at hs
  | number d =>
      rw [hg] at h
      obtain ⟨ds, hds, hd⟩ := constText_form d
      obtain ⟨x, t, rfl, hx⟩ := exists_numberChar_cons hds
      simp only [form, Form.chars, hy, hd] at h
      split at h
      · rw [(List.cons.inj h).1, not_isLetter_bracket] at hz
        simp at hz
      · rw [(List.cons.inj h).1, not_isLetter_of_isNumberChar hx] at hz
        simp at hz
  | joined op' b₁ b₂ =>
      rw [hg] at h
      simp only [form, Form.chars, hy, List.cons_append, List.cons.injEq] at h
      rw [h.1, not_isLetter_bracket] at hz
      simp at hz
  | call g b₁ =>
      rw [hg] at parts h
      simp only [form, Form.chars, List.append_assoc, List.cons_append, List.nil_append] at h
      obtain ⟨hname, hrest⟩ := append_inj_of_run (Text.isNameChar_of_mem (isIdentifier_name f))
        (Text.isNameChar_of_mem (isIdentifier_name g)) opens opens h
      -- a function is found again under its name
      have hfg : f = g := by
        have := congrArg Elementary.ofName? (String.toList_inj.1 hname)
        simpa using this
      obtain ⟨rfl, hclose⟩ := ih b₁ _ _ parts (endsPart_close r) (endsPart_close s)
        (List.cons.inj hrest).2
      exact ⟨form_injective (by rw [hg, hfg]; rfl), (List.cons.inj hclose).2⟩

/-! ### The text determines the expression -/

/-- **Only one expression can be read off the front of a text.** -/
theorem reading_unique (ha : Named a) : ReadsUniquely a := by
  induction a with
  | var x => exact readsUniquely_name (onlyNames_var.1 ha)
  | const c => exact readsUniquely_number c
  | add a b iha ihb =>
      obtain ⟨ha, hb⟩ := onlyNames_add.1 ha
      exact readsUniquely_joined rfl ha (iha ha) (ihb hb)
  | sub a b iha ihb =>
      obtain ⟨ha, hb⟩ := onlyNames_sub.1 ha
      exact readsUniquely_joined rfl ha (iha ha) (ihb hb)
  | mul a b iha ihb =>
      obtain ⟨ha, hb⟩ := onlyNames_mul.1 ha
      exact readsUniquely_joined rfl ha (iha ha) (ihb hb)
  | div a b iha ihb =>
      obtain ⟨ha, hb⟩ := onlyNames_div.1 ha
      exact readsUniquely_joined rfl ha (iha ha) (ihb hb)
  | pow a b iha ihb =>
      obtain ⟨ha, hb⟩ := onlyNames_pow.1 ha
      exact readsUniquely_joined rfl ha (iha ha) (ihb hb)
  | apply f a ih => exact readsUniquely_call f (ih (onlyNames_apply.1 ha))

/-- **Expressions of one text are the same.** -/
theorem text_inj (ha : Named a) (hb : Named b) (h : a.text = b.text) : a = b :=
  (reading_unique ha b [] [] hb endsPart_nil endsPart_nil (by rw [h])).1

end Reckoner.Expr
