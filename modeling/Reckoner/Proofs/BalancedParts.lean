/-
**The parts of a text with matched brackets.**

The reader checks the brackets of a text before it divides it, and checks them again in each part.
Every scanner that finds a place to divide counts the open brackets in its own way, and stops only
where there are none.  A text whose brackets match is therefore cut into parts whose brackets match,
whichever scanner cuts it, and the same holds of their parts in turn: the second check never fails,
and a bracket without a partner is reported of the whole text or not at all.

Main definitions:

* `Reckoner.Notation.Shape.NestedParts` — shapes whose parts have matched brackets;
* `Reckoner.Notation.Reaches` — the texts that the reader comes to on its way through a text.

Main results:

* `Reckoner.Notation.Nested.of_append` — a matched text is cut into matched texts where no bracket is
  open;
* `Reckoner.Notation.nestedParts_shape` — **one step keeps brackets matched**;
* `Reckoner.Notation.Reaches.nested` — **so does every run**;
* `Reckoner.Expr.parse_unbalanced_iff` — **unmatched brackets are reported exactly when the text has
  them**, and then with the whole text.
-/

import Reckoner.Proofs.ZeroForm

set_option autoImplicit false

namespace Reckoner

namespace Notation

open Text (trim)

variable {κ : Type} [Number κ] {c target o : Char} {l r s t p : List Char}

/-! ### Cutting where no bracket is open -/

/-- Behind the beginning of a matched text there are as many brackets open as were opened in it, and
the rest closes them.  When there are none, the beginning is matched by itself. -/
theorem exists_behind {depth : ℕ} (h : balancedFrom depth (s ++ t) = true) :
    ∃ behind : ℕ, (behind : ℤ) = depth + nestingOf s ∧ balancedFrom behind t = true ∧
      (behind = 0 → balancedFrom depth s = true) := by
  induction s generalizing depth with
  | nil => exact ⟨depth, by simp, h, fun h0 => by simp [balancedFrom, h0]⟩
  | cons c s ih =>
      rw [List.cons_append, balancedFrom] at h
      by_cases hopen : c = '('
      · subst hopen
        rw [if_pos rfl] at h
        obtain ⟨behind, hbehind, ht, hs⟩ := ih h
        refine ⟨behind, ?_, ht, ?_⟩
        · rw [hbehind, nestingOf_cons, nesting_open]
          push_cast
          ring
        · intro h0
          rw [balancedFrom, if_pos rfl]
          exact hs h0
      · by_cases hclose : c = ')'
        · subst hclose
          rw [if_neg hopen, if_pos rfl, Bool.and_eq_true] at h
          obtain ⟨hpos, h⟩ := h
          have hdepth : depth ≠ 0 := by simpa using hpos
          obtain ⟨behind, hbehind, ht, hs⟩ := ih h
          refine ⟨behind, ?_, ht, ?_⟩
          · rw [hbehind, nestingOf_cons, nesting_close]
            omega
          · intro h0
            rw [balancedFrom, if_neg hopen, if_pos rfl, hpos, hs h0]
            rfl
        · rw [if_neg hopen, if_neg hclose] at h
          obtain ⟨behind, hbehind, ht, hs⟩ := ih h
          refine ⟨behind, ?_, ht, ?_⟩
          · rw [hbehind, nestingOf_cons, nesting_eq_zero_iff.2 ⟨hopen, hclose⟩, zero_add]
          · intro h0
            rw [balancedFrom, if_neg hopen, if_neg hclose]
            exact hs h0

/-- **A matched text is cut into matched texts where no bracket is open.** -/
theorem Nested.of_append (h : Nested (s ++ t)) (hs : nestingOf s = 0) : Nested s ∧ Nested t := by
  have hbalanced : balancedFrom 0 (s ++ t) = true := h.balanced
  obtain ⟨behind, hbehind, ht, hleft⟩ := exists_behind hbalanced
  obtain rfl : behind = 0 := by
    rw [hs] at hbehind
    simpa using hbehind
  exact ⟨nested_of_balanced (hleft rfl), nested_of_balanced ht⟩

/-- A character between the two sides that is no bracket is left out. -/
theorem Nested.of_append_cons (h : Nested (l ++ c :: r)) (hl : nestingOf l = 0)
    (hc : nesting c = 0) : Nested l ∧ Nested r := by
  obtain ⟨hleft, hrest⟩ := h.of_append hl
  have hsingle : nestingOf [c] = 0 := by simp [hc]
  exact ⟨hleft, (Nested.of_append (s := [c]) hrest hsingle).2⟩

/-! ### Where the scanners cut -/

/-- An operator is found where no bracket is open. -/
theorem nestingOf_of_lastOperator? {ops : Char → Bool} {depth : ℤ} {before : Option Char}
    (h : lastOperator? ops depth before t = some (l, o, r)) :
    depth + nestingOf l = 0 ∧ nesting o = 0 := by
  induction t generalizing depth before l with
  | nil => simp [lastOperator?] at h
  | cons c t ih =>
      simp only [lastOperator?] at h
      split at h
      · rename_i hrest
        obtain ⟨rfl, rfl, rfl⟩ := by simpa using h
        obtain ⟨hdepth, ho⟩ := ih hrest
        exact ⟨by rw [nestingOf_cons, ← add_assoc, hdepth], ho⟩
      · split at h
        · rename_i hop
          obtain ⟨rfl, rfl, rfl⟩ := by simpa using h
          simp only [Bool.and_eq_true, decide_eq_true_eq] at hop
          obtain ⟨⟨⟨hc, hdepth⟩, -⟩, -⟩ := hop
          exact ⟨by rw [hdepth, nestingOf_nil, add_zero], hc⟩
        · simp at h

/-- So is the first occurrence of a character. -/
theorem nestingOf_of_firstOutside? {depth : ℤ} (h : firstOutside? target depth t = some (l, r)) :
    depth + nestingOf l = 0 ∧ nesting target = 0 := by
  induction t generalizing depth l with
  | nil => simp [firstOutside?] at h
  | cons c t ih =>
      simp only [firstOutside?] at h
      split at h
      · rename_i hc
        obtain ⟨hnesting, rfl, hdepth⟩ := hc
        obtain ⟨rfl, rfl⟩ := by simpa using h
        exact ⟨by rw [hdepth, nestingOf_nil, add_zero], hnesting⟩
      · obtain ⟨q, hq, heq⟩ := Option.map_eq_some_iff.1 h
        obtain ⟨rfl, rfl⟩ := Prod.mk.inj heq
        obtain ⟨hdepth, htarget⟩ := ih hq
        exact ⟨by rw [nestingOf_cons, ← add_assoc, hdepth], htarget⟩

/-- The scanner for seams counts the open brackets. -/
theorem depth_run_of_balancedFrom {x : Seam} (h : balancedFrom x.depth (l ++ r) = true) :
    ((x.run l).depth : ℤ) = x.depth + nestingOf l := by
  induction l generalizing x with
  | nil => simp
  | cons c l ih =>
      obtain ⟨hdepth, hrest⟩ := depth_next_of_balancedFrom (by simpa using h)
      rw [Seam.run_cons, ih hrest, hdepth, nestingOf_cons, add_assoc]

/-- A seam begins where an operand does not go on with what has been read. -/
theorem splitsAt_of_lastSeam? {x : Seam} (h : lastSeam? x t = some (l, r)) :
    ∃ c w, r = c :: w ∧ (x.run l).splitsAt c = true := by
  induction t generalizing x l with
  | nil => simp [lastSeam?] at h
  | cons c t ih =>
      simp only [lastSeam?] at h
      split at h
      · rename_i hrest
        obtain ⟨rfl, rfl⟩ := by simpa using h
        obtain ⟨d, w, hr, hsplits⟩ := ih hrest
        exact ⟨d, w, hr, hsplits⟩
      · split at h
        · rename_i hsplits
          obtain ⟨rfl, rfl⟩ := by simpa using h
          exact ⟨c, t, rfl, hsplits⟩
        · simp at h

/-- A seam is found where no bracket is open. -/
theorem nestingOf_of_lastSeam? (ht : Nested t) (h : lastSeam? {} t = some (l, r)) :
    nestingOf l = 0 := by
  obtain ⟨c, w, -, hsplits⟩ := splitsAt_of_lastSeam? h
  have hdepth : (Seam.run {} l).depth = 0 := by
    simp only [Seam.splitsAt, Bool.and_eq_true, beq_iff_eq] at hsplits
    exact hsplits.1.1
  have hbalanced := ht.balanced
  rw [(lastSeam?_eq h).1, balanced] at hbalanced
  have hcount := depth_run_of_balancedFrom (x := {}) hbalanced
  rw [hdepth] at hcount
  simpa using hcount.symm

/-- In front of the first opening bracket no bracket is opened. -/
theorem nestingOf_le_of_cut? (h : Text.cut? '(' t = some (l, r)) : nestingOf l ≤ 0 := by
  induction t generalizing l with
  | nil => simp [Text.cut?] at h
  | cons c t ih =>
      simp only [Text.cut?] at h
      split at h
      · obtain ⟨rfl, rfl⟩ := by simpa using h
        exact le_rfl
      · rename_i hc
        obtain ⟨q, hq, heq⟩ := Option.map_eq_some_iff.1 h
        obtain ⟨rfl, rfl⟩ := Prod.mk.inj heq
        have hnesting : nesting c ≤ 0 := by
          rw [nesting, if_neg hc]
          split <;> decide
        have hrest := ih hq
        rw [nestingOf_cons]
        omega

/-- **An operator cuts a matched text into matched texts.** -/
theorem Nested.of_lastOperator? {ops : Char → Bool} {before : Option Char} (ht : Nested t)
    (h : lastOperator? ops 0 before t = some (l, o, r)) : Nested l ∧ Nested r := by
  obtain ⟨hl, ho⟩ := nestingOf_of_lastOperator? h
  rw [zero_add] at hl
  rw [lastOperator?_eq h] at ht
  exact ht.of_append_cons hl ho

/-- So does a character outside brackets. -/
theorem Nested.of_firstOutside? (ht : Nested t) (h : firstOutside? target 0 t = some (l, r)) :
    Nested l ∧ Nested r := by
  obtain ⟨hl, htarget⟩ := nestingOf_of_firstOutside? h
  rw [zero_add] at hl
  rw [firstOutside?_eq h] at ht
  exact ht.of_append_cons hl htarget

/-- So does a seam. -/
theorem Nested.of_lastSeam? (ht : Nested t) (h : lastSeam? {} t = some (l, r)) :
    Nested l ∧ Nested r := by
  have hl := nestingOf_of_lastSeam? ht h
  rw [(lastSeam?_eq h).1] at ht
  exact ht.of_append hl

/-- The argument of a call is matched. -/
theorem Nested.of_closing? (ht : Nested t) (h : Text.cut? '(' t = some (l, r))
    (hs : closing? 1 r = some (s, [])) : Nested s := by
  have hle := nestingOf_le_of_cut? h
  rw [Text.cut?_eq h] at ht
  -- no more brackets are closed in front of the first one than are opened there
  obtain ⟨behind, hbehind, -⟩ := exists_behind ht.balanced
  have hl : nestingOf l = 0 := by omega
  have hgroup := (ht.of_append hl).2
  refine hgroup.of_enclosed? ?_
  rw [enclosed?, hs]

/-! ### Parts -/

/-- A shape whose parts have matched brackets. -/
def Shape.NestedParts (σ : Shape) : Prop := ∀ p ∈ σ.parts, Nested p

theorem Shape.nestedParts_single (h : Nested s) : ∀ p ∈ [s], Nested p := by
  intro p hp
  rw [List.mem_singleton.1 hp]
  exact h

theorem Shape.nestedParts_pair (h : Nested l ∧ Nested r) : ∀ p ∈ [l, r], Nested p := by
  simpa using h

theorem nestedParts_callShape? {σ : Shape} (ht : Nested t) (h : callShape? t = some σ) :
    σ.NestedParts := by
  unfold callShape? at h
  split at h
  · rename_i hcut
    split at h
    · rename_i hclosing
      split at h
      · obtain rfl := Option.some.inj h
        exact Shape.nestedParts_single (ht.of_closing? hcut hclosing)
      · simp at h
    · simp at h
  · simp at h

theorem nestedParts_atomShape (ht : Nested t) : (atomShape t).NestedParts := by
  unfold atomShape
  split
  · exact Shape.nestedParts_single (Nested.of_append_cons (l := []) ht rfl rfl).2
  · exact Shape.nestedParts_single (Nested.of_append_cons (l := []) ht rfl rfl).2
  · split
    · rename_i hcaret
      exact Shape.nestedParts_pair (ht.of_firstOutside? hcaret)
    · split
      · rename_i hcall
        exact nestedParts_callShape? ht hcall
      · split
        · simp [Shape.NestedParts, Shape.parts]
        · split <;> simp [Shape.NestedParts, Shape.parts]

theorem nestedParts_factorShape? {σ : Shape} (ht : Nested t) (h : factorShape? t = some σ) :
    σ.NestedParts := by
  have operator {l r : List Char} {o : Char}
      (ho : lastOperator? (fun c => c == '*' || c == '/') 0 none t = some (l, o, r)) :
      (if o = '*' then Shape.product l r else .quotient l r).NestedParts := by
    split <;> exact Shape.nestedParts_pair (ht.of_lastOperator? ho)
  have seam {l r : List Char} (hs : lastSeam? {} t = some (l, r)) :
      (Shape.product l r).NestedParts := Shape.nestedParts_pair (ht.of_lastSeam? hs)
  unfold factorShape? at h
  dsimp only at h
  split at h
  · rename_i ho
    split at h
    · rename_i hs
      split at h
      · exact Option.some.inj h ▸ operator ho
      · exact Option.some.inj h ▸ seam hs
    · exact Option.some.inj h ▸ operator ho
  · obtain ⟨q, hq, rfl⟩ := Option.map_eq_some_iff.1 h
    exact seam hq

/-- **The parts of a text with matched brackets have matched brackets.** -/
theorem nestedParts_shape (ht : Nested t) : (shape t).NestedParts := by
  unfold shape
  split
  · simp [Shape.NestedParts, Shape.parts]
  · split
    · simp [Shape.NestedParts, Shape.parts]
    · split
      · rename_i he
        exact Shape.nestedParts_single (ht.of_enclosed? he)
      · split
        · rename_i ho
          split <;> exact Shape.nestedParts_pair (ht.of_lastOperator? ho)
        · cases hf : factorShape? t with
          | none => exact nestedParts_atomShape ht
          | some σ => exact nestedParts_factorShape? ht hf

/-- The texts that the reader comes to on its way through a text: the text itself, the parts of its
shape, their parts, and so on. -/
def Reaches : List Char → List Char → Prop :=
  Relation.ReflTransGen fun t p => p ∈ (shape (trim t)).parts

/-- **On its way through a text with matched brackets the reader meets no others.** -/
theorem Reaches.nested (h : Reaches t p) (ht : Nested t) : Nested p := by
  induction h with
  | refl => exact ht
  | tail _ hpart ih => exact nestedParts_shape (nested_trim_iff.2 ih) _ hpart

/-! ### Unmatched brackets -/

/-- The shape of a text with matched brackets is another one. -/
theorem shape_ne_unbalanced (ht : Nested t) : shape t ≠ .unbalanced := by
  intro h
  have hspans := spans_shape t
  rw [h] at hspans
  have hunmatched : balanced t = false := hspans
  rw [ht.balanced] at hunmatched
  exact Bool.noConfusion hunmatched

/-- An operation on what is read fails only when the reading does. -/
theorem bind_ne_unbalanced {α β : Type} {a : Except ParseError α} {f : α → Except ParseError β}
    {s : String} (ha : a ≠ .error (.unbalanced s)) (hf : ∀ x, f x ≠ .error (.unbalanced s)) :
    a >>= f ≠ .error (.unbalanced s) := by
  cases a with
  | error e =>
      intro h
      exact ha (by rw [Except.error.inj h])
  | ok x => exact hf x

theorem readShape_ne_unbalanced {σ : Shape} {text : String} (hσ : σ ≠ .unbalanced)
    (hparts : ∀ p ∈ σ.parts, (parse p : Except ParseError (Expr κ)) ≠ .error (.unbalanced text)) :
    (readShape t σ : Except ParseError (Expr κ)) ≠ .error (.unbalanced text) := by
  have pair {l r : List Char} {join : Expr κ → Expr κ → Expr κ}
      (hparts : ∀ p ∈ [l, r], (parse p : Except ParseError (Expr κ)) ≠ .error (.unbalanced text)) :
      (do return join (← parse l) (← parse r) : Except ParseError (Expr κ)) ≠
        .error (.unbalanced text) := by
    refine bind_ne_unbalanced (hparts l (by simp)) fun a => ?_
    refine bind_ne_unbalanced (hparts r (by simp)) fun b => ?_
    intro h
    cases h
  cases σ with
  | unbalanced => exact absurd rfl hσ
  | empty | identifier | other =>
      intro h
      cases h
  | numeral =>
      change parseNumeral t ≠ _
      unfold parseNumeral
      split <;> simp
  | enclosed s | positive s => exact hparts s (by simp [Shape.parts])
  | negative s =>
      refine bind_ne_unbalanced (hparts s (by simp [Shape.parts])) fun a => ?_
      intro h
      cases h
  | call name s =>
      refine bind_ne_unbalanced (hparts s (by simp [Shape.parts])) fun a => ?_
      intro h
      unfold parseCall at h
      split at h <;> cases h
  | sum l r | difference l r | product l r | quotient l r | power l r => exact pair hparts

/-- In a text with matched brackets none without a partner is reported. -/
theorem parse_ne_unbalanced (ht : Nested t) (text : String) :
    (parse t : Except ParseError (Expr κ)) ≠ .error (.unbalanced text) := by
  -- by induction on the length of the text, whose parts are shorter
  induction hn : t.length using Nat.strong_induction_on generalizing t with
  | _ n ih =>
      subst hn
      have htrim := nested_trim_iff.2 ht
      rw [parse_eq]
      refine readShape_ne_unbalanced (shape_ne_unbalanced htrim) fun p hp => ?_
      have := length_lt_of_mem_parts hp
      have := Text.length_trim_le t
      exact ih p.length (by omega) (nestedParts_shape htrim p hp) rfl

/-- A text with unmatched brackets is not divided. -/
theorem shape_of_not_balanced (h : balanced t = false) : shape t = .unbalanced := by
  have hne : t ≠ [] := by
    rintro rfl
    exact Bool.noConfusion h
  simp [shape, h, hne]

/-- **A bracket without a partner is reported of the whole text or not at all.** -/
theorem parse_eq_error_unbalanced_iff {text : String} :
    (parse t : Except ParseError (Expr κ)) = .error (.unbalanced text) ↔
      balanced (trim t) = false ∧ text = String.ofList (trim t) := by
  constructor
  · intro h
    have hb : balanced (trim t) = false := by
      rw [Bool.eq_false_iff]
      intro hb
      exact parse_ne_unbalanced (nested_trim_iff.1 (nested_of_balanced hb)) text h
    rw [parse_eq, shape_of_not_balanced hb] at h
    exact ⟨hb, by simpa [readShape] using h.symm⟩
  · rintro ⟨hb, rfl⟩
    rw [parse_eq, shape_of_not_balanced hb]
    rfl

end Notation

open Notation (Reaches balanced)
open Text (trim)

variable {κ : Type} [Number κ]

/-- **Unmatched brackets are reported exactly when the text has them**, and then with the whole text
without the blanks around it.  When it has none, the reader meets none on its way through the
text. -/
theorem Expr.parse_unbalanced_iff (text : String) :
    (∀ reported, (Expr.parse text : Except ParseError (Expr κ)) = .error (.unbalanced reported) ↔
      trim text.toList ≠ [] ∧ balanced (trim text.toList) = false ∧
        reported = String.ofList (trim text.toList)) ∧
    (balanced (trim text.toList) = true →
      ∀ part, Reaches text.toList part → balanced (trim part) = true) := by
  constructor
  · intro reported
    rw [Expr.parse, Notation.parse_eq_error_unbalanced_iff]
    constructor
    · rintro ⟨hb, hreported⟩
      refine ⟨?_, hb, hreported⟩
      intro hnil
      rw [hnil] at hb
      exact Bool.noConfusion hb
    · rintro ⟨-, hb, hreported⟩
      exact ⟨hb, hreported⟩
  · intro hb part hpart
    have hnested := Notation.nested_trim_iff.1 (Notation.nested_of_balanced hb)
    exact (Notation.nested_trim_iff.2 (hpart.nested hnested)).balanced

/-- Through a call, a seam and a pair of brackets the reader comes to the content of the inner
brackets; with one bracket more the whole text is reported. -/
theorem Expr.parse_unbalanced_iff_innerBrackets :
    balanced (trim "sin((x+1)(y)) ".toList) = true ∧
      Reaches "sin((x+1)(y)) ".toList "x+1".toList ∧ balanced (trim "x+1".toList) = true ∧
      (Expr.parse "sin((x+1)(y))) " : Except ParseError (Expr Float)) =
        .error (.unbalanced "sin((x+1)(y)))") := by
  have hb : balanced (trim "sin((x+1)(y)) ".toList) = true := by decide
  have hreaches : Reaches "sin((x+1)(y)) ".toList "x+1".toList := by
    have hcall : Reaches "sin((x+1)(y)) ".toList "(x+1)(y)".toList := .single (by decide)
    have hseam : Reaches "sin((x+1)(y)) ".toList "(x+1)".toList := hcall.tail (by decide)
    exact hseam.tail (by decide)
  exact ⟨hb, hreaches, (parse_unbalanced_iff (κ := Float) _).2 hb _ hreaches,
    ((parse_unbalanced_iff _).1 _).2 (by decide)⟩

end Reckoner
